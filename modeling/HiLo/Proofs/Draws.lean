/-
HiLo.Proofs.Draws — what a draw takes from its source.

A draw is over with the first answer that is not the reserved value. The
lemmas here tell it by the answers to come: a draw that found an answer has
taken it and the reserved values before it (`draw_some`), and one that found
none has looked at reserved values only (`drawWithin_none`). From a state from which
every draw settles, no draw is left without an answer.
-/
import HiLo.Routine

namespace HiLo

variable {σ ε : Type}

/-! ## Single answers -/

/-- A value is reserved if it is the reserved one. -/
theorem Reply.isReserved_value {hi : Int64} :
    (Reply.value hi : Reply ε).isReserved = false ↔ hi ≠ reserved :=
  beq_eq_false_iff_ne

/-- Only the reserved value is reserved. -/
theorem Reply.eq_of_isReserved {r : Reply ε} (h : r.isReserved = true) : r = .value reserved := by
  cases r with
  | value hi => exact congrArg Reply.value (eq_of_beq h)
  | failure cause => cases h
  | crash text => cases h

theorem Reply.isReserved_iff {r : Reply ε} : r.isReserved = true ↔ r = .value reserved := by
  constructor
  · exact Reply.eq_of_isReserved
  · rintro rfl
    exact beq_self_eq_true reserved

theorem Reply.isReserved_eq_false_iff {r : Reply ε} :
    r.isReserved = false ↔ r ≠ .value reserved := by
  rw [Bool.eq_false_iff, ne_eq, isReserved_iff]

/-! ## Answers to come -/

namespace Source

variable (S : Source σ ε)

theorem after_add (i : Nat) : ∀ (j : Nat) (s : σ), S.after i (S.after j s) = S.after (j + i) s
  | 0, s => by rw [Nat.zero_add, after]
  | j + 1, s => by
    rw [Nat.succ_add]
    exact after_add i j (S.next s).2

theorem reply_after (i j : Nat) (s : σ) : S.reply i (S.after j s) = S.reply (j + i) s := by
  unfold reply
  rw [S.after_add]

/-- Every draw from a state on finds an answer within its bound. -/
def SettlesFrom (s : σ) : Prop :=
  ∀ i, ∃ j < S.patience (S.after i s), (S.reply j (S.after i s)).isReserved = false

/-- No answer from a state on is a crash. -/
def CalmFrom (s : σ) : Prop := ∀ i text, S.reply i s ≠ .crash text

variable {S}

theorem SettlesFrom.after {s : σ} (h : S.SettlesFrom s) (i : Nat) :
    S.SettlesFrom (S.after i s) := by
  intro j
  rw [S.after_add]
  exact h (i + j)

theorem CalmFrom.after {s : σ} (h : S.CalmFrom s) (i : Nat) : S.CalmFrom (S.after i s) := by
  intro j text
  rw [S.reply_after]
  exact h (i + j) text

/-! ## Draws -/

theorem drawWithin_some {r : Reply ε} :
    ∀ {p : Nat} {s : σ}, (S.drawWithin p s).reply = some r →
      (S.drawWithin p s).state = S.after ((S.drawWithin p s).skipped + 1) s ∧
        S.reply (S.drawWithin p s).skipped s = r ∧ r.isReserved = false
  | 0, s, h => by simp [drawWithin] at h
  | p + 1, s, h => by
    unfold drawWithin at h ⊢
    by_cases hr : (S.next s).1.isReserved = true
    · simp only [hr, if_true] at h ⊢
      exact drawWithin_some h
    · simp only [hr, Bool.false_eq_true, if_false, Option.some.injEq] at h ⊢
      exact ⟨rfl, h, by simpa [← h] using hr⟩

theorem drawWithin_none :
    ∀ {p : Nat} {s : σ}, (S.drawWithin p s).reply = none →
      (S.drawWithin p s).state = S.after p s ∧ ∀ j < p, (S.reply j s).isReserved = true
  | 0, s, _ => ⟨rfl, nofun⟩
  | p + 1, s, h => by
    unfold drawWithin at h ⊢
    by_cases hr : (S.next s).1.isReserved = true
    · simp only [hr, if_true] at h ⊢
      obtain ⟨hstate, hall⟩ := drawWithin_none h
      refine ⟨hstate, fun j hj => ?_⟩
      cases j with
      | zero => exact hr
      | succ j => exact hall j (by omega)
    · simp [hr] at h

/-- A draw that found an answer has taken it and the reserved values before
it. -/
theorem draw_some {s : σ} {r : Reply ε} (h : (S.draw s).reply = some r) :
    (S.draw s).state = S.after ((S.draw s).skipped + 1) s ∧
      S.reply (S.draw s).skipped s = r ∧ r.isReserved = false :=
  drawWithin_some h

/-- A draw never finds the reserved value. -/
theorem draw_ne_reserved {s : σ} {hi : Int64} (h : (S.draw s).reply = some (.value hi)) :
    hi ≠ reserved :=
  Reply.isReserved_value.mp (draw_some h).2.2

/-- Where draws settle, a draw finds an answer. -/
theorem SettlesFrom.draw {s : σ} (h : S.SettlesFrom s) : ∃ r, (S.draw s).reply = some r := by
  cases hr : (S.draw s).reply with
  | some r => exact ⟨r, rfl⟩
  | none =>
    obtain ⟨j, hj, hfound⟩ := h 0
    have hskipped := (drawWithin_none (S := S) hr).2 j hj
    rw [show S.after 0 s = s from rfl, hskipped] at hfound
    cases hfound

/-- A draw leaves its source in a state to come. -/
theorem exists_draw_state (S : Source σ ε) (s : σ) : ∃ i, (S.draw s).state = S.after i s := by
  cases hr : (S.draw s).reply with
  | some r => exact ⟨_, (draw_some hr).1⟩
  | none => exact ⟨_, (drawWithin_none (S := S) hr).1⟩

end Source

/-! ## The answers of a draw -/

def Act.answer? : Act ε → Option (Reply ε)
  | .asked r => some r
  | _ => none

def Draw.answers (d : Draw σ ε) : List (Reply ε) :=
  List.replicate d.skipped (.value reserved) ++ d.reply.toList

theorem Draw.filterMap_acts (d : Draw σ ε) : d.acts.filterMap Act.answer? = d.answers := by
  have hskipped : (List.replicate d.skipped (Act.asked (.value reserved : Reply ε))).filterMap
      Act.answer? = List.replicate d.skipped (.value reserved) := by
    simp [List.filterMap_replicate, Act.answer?]
  unfold Draw.acts Draw.answers
  rw [List.filterMap_append, hskipped]
  cases d.reply <;> rfl

/-- The hi value of an answer, if it is of use. -/
def Reply.usable? : Reply ε → Option Int64
  | .value hi => if hi = reserved then none else some hi
  | .failure _ | .crash _ => none

/-- A usable value is not the reserved one. -/
theorem Reply.ne_reserved_of_usable? {r : Reply ε} {hi : Int64} (h : r.usable? = some hi) :
    hi ≠ reserved := by
  cases r with
  | value v =>
    rw [usable?] at h
    split at h
    · cases h
    · next hne => exact fun heq => hne (Option.some.inj h ▸ heq)
  | failure cause => cases h
  | crash text => cases h

/-- The usable hi values among the first `n` answers to come. -/
def Source.usables (S : Source σ ε) (n : Nat) (s : σ) : List Int64 :=
  (List.range n).filterMap fun i => (S.reply i s).usable?

theorem Source.usables_succ (S : Source σ ε) (n : Nat) (s : σ) :
    S.usables (n + 1) s = S.usables n s ++ (S.reply n s).usable?.toList := by
  unfold usables
  rw [List.range_succ, List.filterMap_append]
  cases h : (S.reply n s).usable? <;> simp [h]

/-- Of the answers of a draw, only the last one may be of use. -/
theorem Draw.filterMap_answers (d : Draw σ ε) :
    d.answers.filterMap Reply.usable? = (d.reply.bind Reply.usable?).toList := by
  have hskipped : (List.replicate d.skipped (.value reserved : Reply ε)).filterMap
      Reply.usable? = [] := by
    simp [Reply.usable?]
  unfold Draw.answers
  rw [List.filterMap_append, hskipped]
  cases h : d.reply with
  | none => rfl
  | some r => cases hr : r.usable? <;> simp [hr]

/-! ## Answers in their order -/

/-- A source gives some answers, one after another, and is in a state then. -/
inductive Source.Gives (S : Source σ ε) : σ → List (Reply ε) → σ → Prop where
  | nothing {s : σ} : S.Gives s [] s
  | next {s s' : σ} {rs : List (Reply ε)} (rest : S.Gives (S.next s).2 rs s') :
      S.Gives s ((S.next s).1 :: rs) s'

namespace Source.Gives

variable {S : Source σ ε} {s s' s'' : σ} {rs rs' : List (Reply ε)}

theorem append (h : S.Gives s rs s') (h' : S.Gives s' rs' s'') : S.Gives s (rs ++ rs') s'' := by
  induction h with
  | nothing => exact h'
  | next _ ih => exact .next (ih h')

theorem after_eq (h : S.Gives s rs s') : s' = S.after rs.length s := by
  induction h with
  | nothing => rfl
  | next _ ih => exact ih

theorem usables_eq (h : S.Gives s rs s') : rs.filterMap Reply.usable? = S.usables rs.length s := by
  induction h with
  | nothing => rfl
  | @next s s' rs _ ih =>
    have hrest : S.usables (rs.length + 1) s
        = (S.next s).1.usable?.toList ++ S.usables rs.length (S.next s).2 := by
      unfold usables
      rw [List.range_succ_eq_map, List.filterMap_cons, List.filterMap_map]
      cases hr : (S.reply 0 s).usable? with
      | none => rw [show (S.next s).1.usable? = none from hr]; rfl
      | some hi => rw [show (S.next s).1.usable? = some hi from hr]; rfl
    rw [List.length_cons, hrest, ← ih]
    cases hr : (S.next s).1.usable? <;> simp [hr]

end Source.Gives

/-- A draw takes the answers that its source gives. -/
theorem Source.gives_draw (S : Source σ ε) (s : σ) :
    S.Gives s (S.draw s).answers (S.draw s).state := by
  have hwithin : ∀ (n : Nat) (s : σ),
      S.Gives s (S.drawWithin n s).answers (S.drawWithin n s).state := by
    intro n
    induction n with
    | zero => exact fun s => .nothing
    | succ n ih =>
      intro s
      unfold drawWithin
      by_cases hr : (S.next s).1.isReserved = true
      · have hnext := Gives.next (ih (S.next s).2)
        rw [Reply.eq_of_isReserved hr] at hnext
        simp only [hr, if_true]
        exact hnext
      · simp only [hr, Bool.false_eq_true, if_false]
        exact .next .nothing
  exact hwithin _ s

/-- So does a call: whatever its routine, it asks for one answer after another. -/
theorem Routine.gives (S : Source σ ε) (kind : LockKind) (r : Routine ε) :
    ∀ (m : Memory) (s : σ),
      S.Gives s ((r.run S kind m s).acts.filterMap Act.answer?) (r.run S kind m s).source := by
  induction r with
  | finish e => exact fun _ _ => .nothing
  | note n rest ih => exact ih
  | readHi rest ih => exact fun m s => ih m.hi m s
  | readLo rest ih => exact fun m s => ih m.lo m s
  | writeHi hi rest ih => exact fun m s => ih { m with hi } s
  | writeLo lo rest ih => exact fun m s => ih { m with lo } s
  | bumpLo rest ih => exact fun m s => ih (m.lo + 1) { m with lo := m.lo + 1 } s
  | readVersion rest ih => exact fun m s => ih m.version m s
  | bumpVersion rest ih => exact fun m s => ih { m with version := m.version + 1 } s
  | release crashed rest ih => exact fun m s => ih (m.released kind crashed) s
  | acquire rest ih =>
    intro m s
    simp only [run]
    split
    · exact .nothing
    · exact ih m s
  | draw rest ih =>
    intro m s
    have hdraw := S.gives_draw s
    simp only [run]
    cases hr : (S.draw s).reply with
    | none =>
      dsimp only
      rw [Draw.filterMap_acts]
      exact hdraw
    | some r =>
      dsimp only
      rw [List.filterMap_append, Draw.filterMap_acts]
      exact hdraw.append (ih r m _)

end HiLo
