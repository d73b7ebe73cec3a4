/-
HiLo.Proofs.Errands — what is left of a call for a block of one identifier.

With a capacity of one every call needs a hi of its own. `Errand` is the rest of such a call, with
a bound on its moves: it draws a hi only under the lock, sets the hi that it has drawn and no other,
and ends with this one. The calls of both designs that count without the lock run errands
(`Check.routine_errand`).

`Receipts` is what the log has of a thread meanwhile: its usable answers are those of the pairs that
its calls returned, and the hi that the call on its way has drawn and not returned yet.
-/
import HiLo.Proofs.Booked
import HiLo.Proofs.Sharing

namespace HiLo

variable {σ ε : Type}

/-! ## Answers -/

def Event.usable? (e : Event ε) : Option Int64 := e.answer?.bind Reply.usable?

namespace Machine

variable (M : Machine σ ε) (i : Nat)

/-- How the calls of a thread ended is read off its share. -/
theorem filterMap_ending_share : (share M.log i).filterMap Event.ending? = M.endings i := by
  rw [share, endings, List.filterMap_filterMap]
  refine List.filterMap_congr fun x _ => ?_
  obtain ⟨j, e⟩ := x
  by_cases hj : j = i
  · cases e <;> simp [hj, Event.ending?]
  · cases e <;> simp [hj]

/-- So is what it was answered. -/
theorem filterMap_answer_share :
    (share M.log i).filterMap Event.answer? = (M.answers i).reverse := by
  rw [share, answers, acts, List.filterMap_reverse, List.filterMap_reverse, List.reverse_reverse,
    List.filterMap_filterMap, List.filterMap_filterMap]
  refine List.filterMap_congr fun x _ => ?_
  obtain ⟨j, e⟩ := x
  by_cases hj : j = i
  · cases e <;> simp [hj, Event.answer?]
  · cases e <;> simp [hj]

/-- The usable answers of all threads together. -/
theorem filterMap_usable_replies :
    M.replies.filterMap Reply.usable? = M.log.filterMap fun x => x.2.usable? :=
  List.filterMap_filterMap

end Machine

/-- The source gives its answers one after another, whoever asks. -/
theorem Arena.gives_run {A : Arena σ ε} {s : σ} :
    ∀ {sched : List Nat} {M M' : Machine σ ε}, A.run M sched = some M' →
      A.source.Gives s M.replies.reverse M.source → A.source.Gives s M'.replies.reverse M'.source
  | [], M, M', hrun, h => by
    obtain rfl := Option.some.inj hrun
    exact h
  | i :: sched, M, M', hrun, h => by
    obtain ⟨M₁, hmove, hrest⟩ := Option.bind_eq_some_iff.mp hrun
    refine gives_run hrest ?_
    obtain ⟨e, he, ⟨hsource, hother⟩ | ⟨hsource, rfl⟩⟩ := exists_event hmove
    · have hreplies : M₁.replies = M.replies := by
        have hnone : e.answer? = none := by
          cases e with
          | did a => cases a <;> first | rfl | exact absurd rfl (hother _)
          | _ => rfl
        simp [Machine.replies, he, hnone]
      rwa [hreplies, hsource]
    · have hreplies : M₁.replies = (A.source.next M.source).1 :: M.replies := by
        rw [Machine.replies, he]
        rfl
      rw [hreplies, List.reverse_cons, hsource]
      exact h.append (.next .nothing)

/-! ## The receipts of a thread -/

/-- What the log has of a thread: its usable answers are `own` and then the hi values of the pairs
that its calls returned, all with lo zero, and nothing else came of its calls if all is `calm`; of
its calls, `on` are on their way; and there are few enough moves for `left` more, when `k` are
granted to each call besides the answers of the source. -/
structure Receipts (calm : Prop) (k : Nat) (es : List (Event ε)) (own : Option Int64)
    (on left : Nat) : Prop where
  paid : ∃ his : List Int64, es.filterMap Event.usable? = own.toList ++ his ∧
    (es.filterMap Event.ending?).filterMap Ending.pair? = his.map (·, 0) ∧
    (calm → es.filterMap Event.ending? = his.map (.claimed · 0))
  begun : es.countP Event.isBegin = (es.filterMap Event.ending?).length + on
  moves : es.length + left ≤ k * es.countP Event.isBegin + (es.filterMap Event.answer?).length

namespace Receipts

variable {calm : Prop} {k on left : Nat} {es : List (Event ε)} {own : Option Int64}

theorem nil (calm : Prop) (k : Nat) : Receipts calm k ([] : List (Event ε)) none 0 0 :=
  ⟨⟨[], rfl, rfl, fun _ => rfl⟩, rfl, Nat.zero_le _⟩

/-- A call begins, with all its moves. -/
theorem began (h : Receipts calm k es none 0 0) (granted : left + 1 ≤ k) :
    Receipts calm k (.began :: es) none 1 left where
  paid := h.paid
  begun := by
    rw [List.countP_cons_of_pos rfl, h.begun]
    rfl
  moves := by
    have := h.moves
    rw [List.countP_cons_of_pos rfl, List.length_cons, List.filterMap_cons_none rfl,
      Nat.mul_add, Nat.mul_one]
    omega

/-- A thread acts and asks nothing. -/
theorem act (h : Receipts calm k es own on (left + 1)) {e : Event ε} (begin : e.isBegin = false)
    (answer : e.answer? = none) (ending : e.ending? = none) :
    Receipts calm k (e :: es) own on left where
  paid := by
    rw [List.filterMap_cons_none (by simp [Event.usable?, answer]),
      List.filterMap_cons_none ending]
    exact h.paid
  begun := by
    rw [List.countP_cons_of_neg (by simp [begin]), List.filterMap_cons_none ending]
    exact h.begun
  moves := by
    have := h.moves
    rw [List.countP_cons_of_neg (by simp [begin]), List.length_cons,
      List.filterMap_cons_none answer]
    omega

/-- The source answers. -/
theorem asked (h : Receipts calm k es none on left) (a : Reply ε) :
    Receipts calm k (.did (.asked a) :: es) a.usable? on left where
  paid := by
    obtain ⟨his, husable, hpairs, hends⟩ := h.paid
    refine ⟨his, ?_, hpairs, hends⟩
    have hnew : Event.usable? (.did (.asked a) : Event ε) = a.usable? := rfl
    cases ha : a.usable? with
    | none => rw [List.filterMap_cons_none (hnew.trans ha), husable]
    | some hi =>
      rw [List.filterMap_cons_some (hnew.trans ha), husable]
      rfl
  begun := by
    rw [List.countP_cons_of_neg (by simp [Event.isBegin]), List.filterMap_cons_none rfl]
    exact h.begun
  moves := by
    have := h.moves
    rw [List.countP_cons_of_neg (by simp [Event.isBegin]), List.length_cons,
      List.filterMap_cons_some (rfl : Event.answer? (.did (.asked a) : Event ε) = some a),
      List.length_cons]
    omega

/-- A call ends with the hi that it has drawn, or without any. -/
theorem ended (h : Receipts calm k es own 1 (left + 1)) {e : Ending ε}
    (pair : e.pair? = own.map (·, 0)) (some : calm → own ≠ none) :
    Receipts calm k (.ended e :: es) none 0 0 where
  paid := by
    obtain ⟨his, husable, hpairs, hends⟩ := h.paid
    have hending : Event.ending? (.ended e : Event ε) = Option.some e := rfl
    rw [List.filterMap_cons_none rfl, List.filterMap_cons_some hending]
    cases own with
    | none =>
      refine ⟨his, husable, ?_, fun hcalm => absurd rfl (some hcalm)⟩
      rw [List.filterMap_cons_none pair, hpairs]
    | some hi =>
      refine ⟨hi :: his, husable, ?_, fun hcalm => ?_⟩
      · rw [List.filterMap_cons_some pair, hpairs]
        rfl
      · rw [hends hcalm, Ending.pair?_eq_some.mp pair]
        rfl
  begun := by
    rw [List.countP_cons_of_neg (by simp [Event.isBegin]), h.begun,
      List.filterMap_cons_some (rfl : Event.ending? (.ended e : Event ε) = Option.some e)]
    rfl
  moves := by
    have := h.moves
    rw [List.countP_cons_of_neg (by simp [Event.isBegin]), List.length_cons,
      List.filterMap_cons_none rfl]
    omega

/-- A thread has been answered no more hi values than it has begun calls. -/
theorem length_usable_le (h : Receipts calm k es own on left) (le : own.toList.length ≤ on) :
    (es.filterMap Event.usable?).length ≤ es.countP Event.isBegin := by
  obtain ⟨his, husable, hpairs, -⟩ := h.paid
  have hhis : his.length ≤ (es.filterMap Event.ending?).length := by
    rw [← List.length_map, ← hpairs]
    exact List.length_filterMap_le _ _
  rw [husable, List.length_append, h.begun]
  omega

end Receipts

/-! ## What is left of a call -/

/-- Where a call stands: outside the lock, where it may have seen a hi; or inside, under a given
hi, where it may have counted the first lo. It has drawn a hi or not. -/
inductive Spot where
  | outside (seen : Bool) (own : Option Int64)
  | inside (hi : Int64) (own : Option Int64) (counted : Bool)

/-- The hi that the call has drawn and not returned yet. -/
def Spot.own : Spot → Option Int64
  | .outside _ own | .inside _ own _ => own

/-- The rest of a call that makes `n` moves at most besides asking the source, where every lo that
is counted up under a hi is past the block. It draws a hi only under the lock and without having
one, sets the hi that it has drawn and no other, and ends with this one and lo zero, or without any.
If all is `calm`, the source answers with values only. -/
inductive Errand (calm : Prop) : Nat → Spot → Routine ε → Prop where
  | note {n : Nat} {p : Spot} {x : Note} {r : Routine ε} (rest : Errand calm n p r) :
      Errand calm (n + 1) p (.note x r)
  | readVersion {n : Nat} {p : Spot} {f : UInt64 → Routine ε} (rest : ∀ v, Errand calm n p (f v)) :
      Errand calm (n + 1) p (.readVersion f)
  | bumpVersion {n : Nat} {p : Spot} {r : Routine ε} (rest : Errand calm n p r) :
      Errand calm (n + 1) p (.bumpVersion r)
  | lookHi {n : Nat} {seen : Bool} {own : Option Int64} {f : Int64 → Routine ε}
      (none : Errand calm n (.outside false own) (f reserved))
      (some : ∀ hi, hi ≠ reserved → Errand calm n (.outside true own) (f hi)) :
      Errand calm (n + 1) (.outside seen own) (.readHi f)
  | countLo {n : Nat} {own : Option Int64} {f : Int64 → Routine ε}
      (rest : ∀ lo, 1 ≤ lo → Errand calm n (.outside true own) (f lo)) :
      Errand calm (n + 1) (.outside true own) (.bumpLo f)
  | acquire {n : Nat} {seen : Bool} {r : Routine ε}
      (rest : ∀ hi, Errand calm (n + 1) (.inside hi none false) r) :
      Errand calm (n + 2) (.outside seen none) (.acquire r)
  | finish {n : Nat} {seen : Bool} {own : Option Int64} {e : Ending ε}
      (pair : e.pair? = own.map (·, 0)) (some : calm → own ≠ none) :
      Errand calm (n + 1) (.outside seen own) (.finish e)
  | readHi {n : Nat} {hi : Int64} {own : Option Int64} {counted : Bool} {f : Int64 → Routine ε}
      (rest : Errand calm n (.inside hi own counted) (f hi)) :
      Errand calm (n + 1) (.inside hi own counted) (.readHi f)
  | draw {n : Nat} {hi : Int64} {f : Reply ε → Routine ε}
      (rest : ∀ a, a.isReserved = false → (calm → ∃ next, a = .value next) →
        Errand calm n (.inside hi a.usable? false) (f a)) :
      Errand calm n (.inside hi none false) (.draw f)
  | countFirst {n : Nat} {own : Option Int64} {f : Int64 → Routine ε}
      (rest : Errand calm n (.inside reserved own true) (f 0)) :
      Errand calm (n + 1) (.inside reserved own false) (.bumpLo f)
  | countNext {n : Nat} {hi : Int64} {own : Option Int64} {f : Int64 → Routine ε}
      (useful : hi ≠ reserved) (rest : ∀ lo, 1 ≤ lo → Errand calm n (.inside hi own false) (f lo)) :
      Errand calm (n + 1) (.inside hi own false) (.bumpLo f)
  | setFirst {n : Nat} {hi : Int64} {r : Routine ε} (useful : hi ≠ reserved)
      (rest : Errand calm n (.inside hi (some hi) false) r) :
      Errand calm (n + 1) (.inside reserved (some hi) true) (.writeHi hi r)
  | setNext {n : Nat} {hi next : Int64} {r : Routine ε} (useful : hi ≠ reserved)
      (useful' : next ≠ reserved) (rest : Errand calm n (.inside next (some next) false) r) :
      Errand calm (n + 1) (.inside hi (some next) false) (.writeHi next r)
  | restart {n : Nat} {hi : Int64} {own : Option Int64} {r : Routine ε} (useful : hi ≠ reserved)
      (rest : Errand calm n (.inside hi own false) r) :
      Errand calm (n + 1) (.inside hi own false) (.writeLo 0 r)
  | release {n : Nat} {hi : Int64} {own : Option Int64} {crashed seen : Bool} {r : Routine ε}
      (useful : seen = true → hi ≠ reserved) (sound : calm → crashed = false)
      (rest : Errand calm n (.outside seen own) r) :
      Errand calm (n + 1) (.inside hi own false) (.release crashed r)

/-- More moves may be granted. -/
theorem Errand.mono {calm : Prop} {n m : Nat} {p : Spot} {r : Routine ε} (h : Errand calm n p r)
    (le : n ≤ m) : Errand calm m p r := by
  induction h generalizing m
  case draw ih => exact .draw fun a ha hcalm => ih a ha hcalm le
  case acquire ih =>
    obtain ⟨m, rfl⟩ : ∃ l, m = l + 2 := ⟨m - 2, by omega⟩
    exact .acquire fun hi => ih hi (by omega)
  all_goals obtain ⟨m, rfl⟩ : ∃ l, m = l + 1 := ⟨m - 1, by omega⟩
  case note ih => exact .note (ih (by omega))
  case readVersion ih => exact .readVersion fun v => ih v (by omega)
  case bumpVersion ih => exact .bumpVersion (ih (by omega))
  case lookHi ih₁ ih₂ => exact .lookHi (ih₁ (by omega)) fun hi useful => ih₂ hi useful (by omega)
  case countLo ih => exact .countLo fun lo past => ih lo past (by omega)
  case finish pair some => exact .finish pair some
  case readHi ih => exact .readHi (ih (by omega))
  case countFirst ih => exact .countFirst (ih (by omega))
  case countNext useful _ ih => exact .countNext useful fun lo past => ih lo past (by omega)
  case setFirst useful _ ih => exact .setFirst useful (ih (by omega))
  case setNext useful useful' _ ih => exact .setNext useful useful' (ih (by omega))
  case restart useful _ ih => exact .restart useful (ih (by omega))
  case release useful sound _ ih => exact .release useful sound (ih (by omega))

/-! ## The designs run errands -/

section Designs

variable {calm : Prop} {L : Layout} {hi : Int64} {own : Option Int64} {n : Nat}

namespace Check

variable (c : Check)

theorem leave_errand {crashed seen : Bool} {rest : Routine ε} (useful : seen = true → hi ≠ reserved)
    (sound : calm → crashed = false) (hrest : Errand calm n (.outside seen own) rest) :
    Errand calm (n + 2) (.inside hi own false) (c.leave crashed rest) := by
  cases c with
  | reread => exact .release useful sound (hrest.mono (Nat.le_succ n))
  | version => exact .bumpVersion (.release useful sound hrest)

theorem drawThen_errand {adopt : Int64 → Routine ε} (hadopt : ∀ next, next ≠ reserved →
      Errand calm (n + 3) (.inside hi (some next) false) (adopt next)) :
    Errand calm (n + 3) (.inside hi none false) (c.drawThen adopt) := by
  refine .draw fun a ha hcalm => ?_
  cases a with
  | value next =>
    have useful : next ≠ reserved := Reply.isReserved_value.mp ha
    have usable : (Reply.value next : Reply ε).usable? = some next := if_neg useful
    rw [usable]
    exact hadopt next useful
  | failure cause =>
    have rough : ¬ calm := fun h => by obtain ⟨_, heq⟩ := hcalm h; cases heq
    exact c.leave_errand (nofun : false = true → _) (fun h => absurd h rough)
      (.finish rfl fun h => absurd h rough)
  | crash text =>
    have rough : ¬ calm := fun h => by obtain ⟨_, heq⟩ := hcalm h; cases heq
    exact c.leave_errand (nofun : false = true → _) (fun h => absurd h rough)
      (.finish rfl fun h => absurd h rough)

/-- The end of a call with the hi that it has drawn. -/
theorem finish_errand (calm : Prop) (hi : Int64) : Errand calm 1 (.outside true (some hi))
    (.finish (.claimed hi 0) : Routine ε) := .finish rfl fun _ => nofun

theorem claimFirst_errand (useful : hi ≠ reserved) :
    Errand calm 6 (.inside reserved (some hi) false) (c.claimFirst hi : Routine ε) :=
  .countFirst <| .setFirst useful <| c.leave_errand (fun _ => useful) (fun _ => rfl) <|
    .note (finish_errand calm hi)

theorem publish_errand {next : Int64} (useful : hi ≠ reserved) (useful' : next ≠ reserved) :
    Errand calm 6 (.inside hi (some next) false) (c.publish next : Routine ε) :=
  .setNext useful useful' <| .restart useful' <| .note <|
    c.leave_errand (fun _ => useful') (fun _ => rfl) (finish_errand calm next)

theorem work_errand (one : L.capacity = 1) (hi : Int64) :
    Errand calm 8 (.inside hi none false) (c.work L : Routine ε) := by
  refine .readHi ?_
  split
  · next hnone =>
    subst hnone
    have draw : Errand calm 6 (.inside reserved none false) (c.drawThen c.claimFirst : Routine ε) :=
      c.drawThen_errand fun _ useful => c.claimFirst_errand useful
    exact draw.mono (by decide)
  · next hsome =>
    refine .countNext hsome fun lo past => ?_
    rw [if_pos (by rwa [one])]
    exact c.drawThen_errand fun _ useful => c.publish_errand hsome useful

theorem exclusive_errand (one : L.capacity = 1) {seen : Bool} :
    Errand calm 10 (.outside seen none) (c.exclusive L : Routine ε) := by
  refine .acquire fun hi => ?_
  cases c with
  | reread => exact (work_errand _ one hi).mono (by decide)
  | version => exact .bumpVersion (work_errand _ one hi)

end Check

theorem Optimistic.attempt_errand (one : L.capacity = 1) {seen : Bool} :
    ∀ n, Errand calm (3 * n + 11) (.outside seen none) (attempt L n : Routine ε)
  | 0 => (Check.reread.exclusive_errand one).mono (by decide)
  | n + 1 => by
    rw [attempt_succ]
    refine .lookHi ?_ fun hi useful => ?_
    · rw [if_pos rfl]
      exact (Check.reread.exclusive_errand one).mono (by omega)
    · rw [if_neg useful]
      refine .countLo fun lo past => ?_
      rw [if_pos (by rwa [one])]
      exact (Check.reread.exclusive_errand one).mono (by omega)

theorem Stamped.attempt_errand (one : L.capacity = 1) {seen : Bool} (n : Nat) :
    Errand calm (3 * n + 11) (.outside seen none) (attempt L n : Routine ε) := by
  induction n generalizing seen with
  | zero => exact (Check.version.exclusive_errand one).mono (by decide)
  | succ n ih =>
    rw [attempt_succ]
    refine .readVersion fun stamp => ?_
    split
    · exact ih.mono (by omega)
    refine .lookHi ?_ fun hi useful => ?_
    · rw [if_pos rfl]
      exact (Check.version.exclusive_errand one).mono (by omega)
    rw [if_neg useful]
    refine .readVersion fun before => ?_
    split
    · exact ih.mono (by omega)
    refine .countLo fun lo past => ?_
    rw [if_pos (by rwa [one])]
    exact (Check.version.exclusive_errand one).mono (by omega)

/-- **The calls of the designs that count without the lock run errands.** -/
theorem Check.routine_errand (c : Check) (one : L.capacity = 1) (attempts : UInt32) :
    Errand calm (3 * attempts.toNat + 12) (.outside false none)
      ((c.design attempts).routine L : Routine ε) := by
  cases c with
  | reread => exact .note (Optimistic.attempt_errand one _)
  | version => exact .note (Stamped.attempt_errand one _)

end Designs

end HiLo
