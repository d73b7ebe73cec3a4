/-
HiLo.Proofs.Obtaining — how a call obtains an answer.

A call that draws asks until the answer is anything but the reserved value. Without the bound
on its answers a draw is a loop, and it ends exactly if some answer to come is another one
(`draw_takes_first_other`). The first such answer decides it: the call has asked once for each
reserved value before and once more, adopts a hi value as it is, and ends with the failure or
the crash of the source otherwise.

`Decides` names the answer that decides, and both readings of a draw are told by it: the
loop (`Source.Yields`) and the draw within a bound (`Decides.drawWithin_eq`). `DrawsFor` lists
where the designs draw.
-/
import HiLo.Proofs.Steps
import HiLo.Proofs.Terms
import HiLo.Source.Feed

namespace HiLo

variable {σ ε : Type}

/-! ## The answer that decides -/

/-- Answer number `k` is the first one that is not the reserved value. -/
structure Source.Decides (S : Source σ ε) (s : σ) (k : Nat) : Prop where
  skipped : ∀ j < k, S.reply j s = .value reserved
  other : S.reply k s ≠ .value reserved

/-- The reserved value `k` times, and then answer number `k`: what a draw takes that this answer
decides. -/
def Source.answersTo (S : Source σ ε) (s : σ) (k : Nat) : List (Reply ε) :=
  List.replicate k (.value reserved) ++ [S.reply k s]

namespace Source

variable {S : Source σ ε} {s s' : σ} {k : Nat} {r : Reply ε} {rs : List (Reply ε)}

theorem decides_zero : S.Decides s 0 ↔ (S.next s).1 ≠ .value reserved := by
  constructor
  · exact fun h => h.other
  · exact fun h => ⟨nofun, h⟩

theorem decides_succ :
    S.Decides s (k + 1) ↔ (S.next s).1 = .value reserved ∧ S.Decides (S.next s).2 k := by
  constructor
  · intro h
    exact ⟨h.skipped 0 (Nat.succ_pos k), fun j hj => h.skipped (j + 1) (Nat.succ_lt_succ hj),
      h.other⟩
  · rintro ⟨hfirst, h⟩
    refine ⟨fun j hj => ?_, h.other⟩
    cases j with
    | zero => exact hfirst
    | succ j => exact h.skipped j (Nat.lt_of_succ_lt_succ hj)

theorem Decides.unique {k' : Nat} (h : S.Decides s k) (h' : S.Decides s k') : k = k' := by
  rcases Nat.lt_trichotomy k k' with hlt | heq | hgt
  · exact absurd (h'.skipped k hlt) h.other
  · exact heq
  · exact absurd (h.skipped k' hgt) h'.other

/-- Some answer decides exactly if some answer is not the reserved value. -/
theorem exists_decides_iff : (∃ k, S.Decides s k) ↔ ∃ k, S.reply k s ≠ .value reserved := by
  constructor
  · rintro ⟨k, h⟩
    exact ⟨k, h.other⟩
  · intro h
    classical
    refine ⟨Nat.find h, fun j hj => ?_, Nat.find_spec h⟩
    exact not_not.mp (Nat.find_min h hj)

theorem length_answersTo (S : Source σ ε) (s : σ) (k : Nat) : (S.answersTo s k).length = k + 1 := by
  simp [answersTo]

/-! ## Draws with and without a bound -/

/-- The loop comes to an end with the answer that decides, and has taken all before it. -/
theorem yields_iff : S.Yields s rs r s' ↔
    ∃ k, S.Decides s k ∧ rs = S.answersTo s k ∧ r = S.reply k s ∧ s' = S.after (k + 1) s := by
  constructor
  · intro h
    induction h with
    | found useful =>
      exact ⟨0, decides_zero.mpr (Reply.isReserved_eq_false_iff.mp useful), rfl, rfl, rfl⟩
    | skipped useless _ ih =>
      obtain ⟨k, hk, hrs, hr, hs⟩ := ih
      have hfirst := Reply.eq_of_isReserved useless
      refine ⟨k + 1, decides_succ.mpr ⟨hfirst, hk⟩, ?_, hr, hs⟩
      rw [hfirst, hrs]
      rfl
  · rintro ⟨k, hk, rfl, rfl, rfl⟩
    induction k generalizing s with
    | zero => exact .found (Reply.isReserved_eq_false_iff.mpr hk.other)
    | succ k ih =>
      obtain ⟨hfirst, hrest⟩ := decides_succ.mp hk
      have hyields := Yields.skipped (Reply.isReserved_iff.mpr hfirst) (ih hrest)
      rw [hfirst] at hyields
      exact hyields

/-- It can end in no other way. -/
theorem Decides.yields_iff (h : S.Decides s k) :
    S.Yields s rs r s' ↔ rs = S.answersTo s k ∧ r = S.reply k s ∧ s' = S.after (k + 1) s := by
  rw [Source.yields_iff]
  constructor
  · rintro ⟨k', hk', hrest⟩
    exact h.unique hk' ▸ hrest
  · exact fun hrest => ⟨k, h, hrest⟩

/-- A bounded draw finds the answer that decides if its bound lets it look that far, and has
looked at nothing but reserved values otherwise. -/
theorem Decides.drawWithin_eq (h : S.Decides s k) (n : Nat) :
    S.drawWithin n s = if k < n then ⟨some (S.reply k s), k, S.after (k + 1) s⟩
      else ⟨none, n, S.after n s⟩ := by
  induction n generalizing k s with
  | zero => rfl
  | succ n ih =>
    unfold drawWithin
    cases k with
    | zero =>
      have hother : (S.next s).1.isReserved = false := Reply.isReserved_eq_false_iff.mpr h.other
      simp only [hother, Bool.false_eq_true, if_false, Nat.succ_pos, if_true]
      rfl
    | succ k =>
      obtain ⟨hfirst, hrest⟩ := decides_succ.mp h
      have hreserved : (S.next s).1.isReserved = true := Reply.isReserved_iff.mpr hfirst
      simp only [hreserved, if_true, ih hrest, Nat.add_lt_add_iff_right]
      split <;> rfl

end Source

/-! ## Calls that draw -/

/-- The places where the designs draw, each with what follows a hi value. The two designs that
count without the lock draw in the same section. -/
inductive DrawsFor : (Int64 → Routine ε) → Routine ε → Prop where
  | plain (lo : Int64) : DrawsFor (Plain.commit · lo) (Plain.drawFor lo)
  | locked (adopt : Int64 → Routine ε) : DrawsFor adopt (Locked.drawThen adopt)
  | counting (c : Check) (adopt : Int64 → Routine ε) : DrawsFor adopt (c.drawThen adopt)

/-- A routine that ends a call without asking or touching hi and lo any more. -/
inductive Quits (e : Ending ε) : Routine ε → Prop where
  | finish : Quits e (.finish e)
  | release {crashed : Bool} {r : Routine ε} (rest : Quits e r) : Quits e (.release crashed r)
  | bumpVersion {r : Routine ε} (rest : Quits e r) : Quits e (.bumpVersion r)

theorem Check.leave_quits (c : Check) {crashed : Bool} {e : Ending ε} :
    Quits e (c.leave crashed (.finish e)) := by
  cases c with
  | reread => exact .release .finish
  | version => exact .bumpVersion (.release .finish)

theorem Quits.performs {e : Ending ε} {r : Routine ε} (h : Quits e r) (S : Source σ ε)
    (kind : LockKind) (m : Memory) (s : σ) :
    ∃ q, Performs S kind r m s q ∧ q.ending = e ∧ q.source = s ∧
      q.acts.filterMap Act.answer? = [] := by
  induction h generalizing m with
  | finish => exact ⟨_, .finish, rfl, rfl, rfl⟩
  | @release crashed r _ ih =>
    obtain ⟨q, hq, hend, hsource, hacts⟩ := ih (m.released kind crashed)
    exact ⟨_, .cons (r := .release crashed r) rfl hq, hend, hsource, hacts⟩
  | @bumpVersion r _ ih =>
    obtain ⟨q, hq, hend, hsource, hacts⟩ := ih { m with version := m.version + 1 }
    exact ⟨_, .cons (r := .bumpVersion r) rfl hq, hend, hsource, hacts⟩

/-- A hi value is adopted as it is, and anything else ends the call. -/
theorem DrawsFor.exists_rest {adopt : Int64 → Routine ε} {r : Routine ε} (h : DrawsFor adopt r) :
    ∃ f, r = .draw f ∧ (∀ hi, f (.value hi) = adopt hi) ∧
      (∀ cause, Quits (.failed (.source cause)) (f (.failure cause))) ∧
      ∀ text, Quits (.crashed text) (f (.crash text)) := by
  cases h with
  | plain lo => exact ⟨_, rfl, fun _ => rfl, fun _ => .finish, fun _ => .finish⟩
  | locked adopt =>
    exact ⟨_, rfl, fun _ => rfl, fun _ => .release .finish, fun _ => .release .finish⟩
  | counting c adopt => exact ⟨_, rfl, fun _ => rfl, fun _ => c.leave_quits, fun _ => c.leave_quits⟩

section Calls

variable {S : Source σ ε} {kind : LockKind} {m : Memory} {s : σ} {k : Nat} {q : Performed σ ε}
  {f : Reply ε → Routine ε} {adopt : Int64 → Routine ε} {call : Routine ε}

/-- A call that draws and comes to an end has got what the source yields. -/
theorem Performs.of_draw (h : Performs S kind (.draw f) m s q) :
    ∃ rs a s' q', S.Yields s rs a s' ∧ Performs S kind (f a) m s' q' ∧
      q = { q' with acts := rs.map .asked ++ q'.acts } := by
  generalize hcall : Routine.draw f = call at h
  induction h with
  | finish => cases hcall
  | @step r m s p q first rest ih =>
    subst hcall
    obtain rfl := Option.some.inj first
    dsimp only at rest ih
    by_cases hr : (S.next s).1.isReserved = true
    · rw [if_pos hr] at ih
      obtain ⟨rs, a, s', q', hyields, hq', rfl⟩ := ih rfl
      exact ⟨_, a, s', q', .skipped hr hyields, hq', rfl⟩
    · rw [if_neg hr] at rest
      exact ⟨_, _, _, q, .found (Bool.eq_false_iff.mpr hr), rest, rfl⟩

/-- Where some answer decides, a call that draws goes on with it. -/
theorem Source.Decides.performs_iff (h : S.Decides s k) :
    Performs S kind (.draw f) m s q ↔
      ∃ q', Performs S kind (f (S.reply k s)) m (S.after (k + 1) s) q' ∧
        q = { q' with acts := (S.answersTo s k).map .asked ++ q'.acts } := by
  constructor
  · intro hq
    obtain ⟨rs, a, s', q', hyields, hq', rfl⟩ := hq.of_draw
    obtain ⟨k', hk', rfl, rfl, rfl⟩ := Source.yields_iff.mp hyields
    obtain rfl := h.unique hk'
    exact ⟨q', hq', rfl⟩
  · rintro ⟨q', hq', rfl⟩
    exact .draw (Source.yields_iff.mpr ⟨k, h, rfl, rfl, rfl⟩) hq'

/-- A call that quits after a draw ends so, and has taken what the draw must. -/
theorem Source.Decides.exists_performs {e : Ending ε} (h : S.Decides s k)
    (quits : Quits e (f (S.reply k s))) :
    ∃ q, Performs S kind (.draw f) m s q ∧ q.ending = e ∧ q.source = S.after (k + 1) s ∧
      q.acts.filterMap Act.answer? = S.answersTo s k := by
  obtain ⟨q', hq', hend, hsource, hacts⟩ := quits.performs S kind m (S.after (k + 1) s)
  refine ⟨_, h.performs_iff.mpr ⟨q', hq', rfl⟩, hend, hsource, ?_⟩
  rw [List.filterMap_append, filterMap_answer?_asked, hacts, List.append_nil]

/-- A call obtains answer number `k` from a state of the source, after all answers before it: it
goes on with a hi value as it is, and ends with a failure or a crash. -/
structure Obtains (S : Source σ ε) (s : σ) (k : Nat) (adopt : Int64 → Routine ε)
    (call : Routine ε) : Prop where
  value : ∀ kind m hi q, S.reply k s = .value hi → (Performs S kind call m s q ↔
    ∃ q', Performs S kind (adopt hi) m (S.after (k + 1) s) q' ∧
      q = { q' with acts := (S.answersTo s k).map .asked ++ q'.acts })
  failure : ∀ kind m cause, S.reply k s = .failure cause → ∃ q, Performs S kind call m s q ∧
    q.ending = .failed (.source cause) ∧ q.source = S.after (k + 1) s ∧
      q.acts.filterMap Act.answer? = S.answersTo s k
  crash : ∀ kind m text, S.reply k s = .crash text → ∃ q, Performs S kind call m s q ∧
    q.ending = .crashed text ∧ q.source = S.after (k + 1) s ∧
      q.acts.filterMap Act.answer? = S.answersTo s k

/-- **Wherever a design draws, its call obtains the answer that decides.** -/
theorem DrawsFor.obtains (hcall : DrawsFor adopt call) (h : S.Decides s k) :
    Obtains S s k adopt call := by
  obtain ⟨f, rfl, hvalue, hfailure, hcrash⟩ := hcall.exists_rest
  constructor
  · intro kind m hi q hr
    rw [h.performs_iff, hr, hvalue]
  · intro kind m cause hr
    exact h.exists_performs (hr ▸ hfailure cause)
  · intro kind m text hr
    exact h.exists_performs (hr ▸ hcrash text)

/-- Without an answer that decides it never ends. -/
theorem DrawsFor.exists_decides (hcall : DrawsFor adopt call) (h : Performs S kind call m s q) :
    ∃ k, S.Decides s k := by
  obtain ⟨f, rfl, -⟩ := hcall.exists_rest
  obtain ⟨rs, a, s', q', hyields, -⟩ := h.of_draw
  obtain ⟨k, hk, -⟩ := Source.yields_iff.mp hyields
  exact ⟨k, hk⟩

end Calls

/-! ## Arithmetic sequences -/

namespace Feed

/-- A feed that supplies an arithmetic sequence and is up. -/
def arithmetic (upcoming step : Int64) (infallible : Bool) (requests : Nat) : Feed :=
  ⟨.arithmetic upcoming step, none, infallible, requests⟩

variable {upcoming step : Int64} {infallible : Bool} {requests : Nat}

theorem after_arithmetic (n : Nat) : ∀ (upcoming : Int64) (requests : Nat),
    source.after n (arithmetic upcoming step infallible requests)
      = arithmetic (upcoming + .ofNat n * step) step infallible (requests + n) := by
  induction n with
  | zero =>
    intro upcoming requests
    have hsame : upcoming + Int64.ofNat 0 * step = upcoming := by grind
    rw [hsame]
    rfl
  | succ n ih =>
    intro upcoming requests
    have hnext : source.after (n + 1) (arithmetic upcoming step infallible requests)
        = source.after n (arithmetic (upcoming + step) step infallible (requests + 1)) := rfl
    have hterm : upcoming + step + Int64.ofNat n * step = upcoming + .ofNat (n + 1) * step := by
      rw [Int64.ofNat_add]
      grind
    rw [hnext, ih, hterm, Nat.add_right_comm, Nat.add_assoc]

theorem reply_arithmetic (j : Nat) :
    source.reply j (arithmetic upcoming step infallible requests)
      = .value (upcoming + .ofNat j * step) := by
  rw [Source.reply, after_arithmetic]
  rfl

/-- Of two terms in a row, one is not the reserved value. -/
theorem exists_decides_arithmetic (moves : step ≠ 0) :
    ∃ k ≤ 1, source.Decides (arithmetic upcoming step infallible requests) k := by
  by_cases hfirst : upcoming = reserved
  · refine ⟨1, Nat.le_refl 1, Source.decides_succ.mpr ⟨congrArg Reply.value hfirst, ?_⟩⟩
    refine Source.decides_zero.mpr fun heq => moves ?_
    have hsecond : upcoming + step = reserved := Reply.value.inj heq
    grind
  · exact ⟨0, Nat.zero_le 1, Source.decides_zero.mpr fun heq => hfirst (Reply.value.inj heq)⟩

/-- Wherever it has got to, a sequence that moves is asked twice at most. -/
theorem exists_yields_arithmetic (moves : step ≠ 0) :
    ∃ rs hi f, source.Yields (arithmetic upcoming step infallible requests) rs (.value hi) f ∧
      rs.length ≤ 2 ∧ f.requests = requests + rs.length := by
  obtain ⟨k, hk, h⟩ := exists_decides_arithmetic moves
  refine ⟨_, _, _, h.yields_iff.mpr ⟨rfl, (reply_arithmetic k).symm, rfl⟩, ?_, ?_⟩
  · rw [Source.length_answersTo]
    omega
  · rw [Source.length_answersTo, after_arithmetic]
    rfl

end Feed

/-- A progression decides every draw with its first answer. -/
theorem Progression.decides (ε : Type) (p : Progression) : (source ε).Decides p 0 := by
  refine Source.decides_zero.mpr fun heq => ?_
  have hnever := term_skips_ne_reserved 0 p
  rw [skips, Nat.zero_add, ← next_eq_term] at hnever
  exact hnever (Reply.value.inj heq)

/-! ## The whole of it -/

/-- **A draw takes what it must.** It ends exactly if some answer to come is not the reserved value.
The first such answer ends it: the source was asked once for each reserved value before it and
once for it, and is as this answer left it. A draw within a bound is the same one, cut off at the
bound. Wherever a design draws, its call goes on with the very hi value, or ends with the failure
or the crash of the source, and without such an answer it never ends. An arithmetic sequence that
moves is asked twice at most, wherever it has got to, and a progression once. -/
theorem draw_takes_first_other (S : Source σ ε) (s : σ) :
    ((∃ rs r s', S.Yields s rs r s') ↔ ∃ k, S.reply k s ≠ .value reserved) ∧
    (∀ k, S.Decides s k →
      (∀ rs r s', S.Yields s rs r s' ↔
        rs = S.answersTo s k ∧ r = S.reply k s ∧ s' = S.after (k + 1) s) ∧
      (∀ n, S.drawWithin n s = if k < n then ⟨some (S.reply k s), k, S.after (k + 1) s⟩
        else ⟨none, n, S.after n s⟩) ∧
      ∀ adopt call, DrawsFor adopt call → Obtains S s k adopt call) ∧
    ((∀ k, S.reply k s = .value reserved) → ∀ adopt call, DrawsFor adopt call →
      ∀ kind m q, ¬ Performs S kind call m s q) ∧
    (∀ (start step : Int64) (infallible : Bool) (n : Nat), step ≠ 0 →
      let f := Feed.source.after n (.ofSupply (.arithmetic start step) infallible)
      (∀ j, Feed.source.reply j f = .value (start + .ofNat (n + j) * step)) ∧
      ∃ rs hi f', Feed.source.Yields f rs (.value hi) f' ∧ rs.length ≤ 2 ∧
        f'.requests = f.requests + rs.length) ∧
    ∀ (p : Progression) rs r p', (Progression.source ε).Yields p rs r p' ↔
      rs = [.value p.next.1] ∧ r = .value p.next.1 ∧ p' = p.next.2 := by
  refine ⟨?_, fun k h => ⟨fun rs r s' => h.yields_iff, h.drawWithin_eq, ?_⟩, ?_, ?_, ?_⟩
  · rw [← Source.exists_decides_iff]
    constructor
    · rintro ⟨rs, r, s', h⟩
      obtain ⟨k, hk, -⟩ := Source.yields_iff.mp h
      exact ⟨k, hk⟩
    · rintro ⟨k, hk⟩
      exact ⟨_, _, _, hk.yields_iff.mpr ⟨rfl, rfl, rfl⟩⟩
  · intro adopt call hcall
    exact hcall.obtains h
  · intro never adopt call hcall kind m q hq
    obtain ⟨k, hk⟩ := hcall.exists_decides hq
    exact hk.other (never k)
  · intro start step infallible n moves f
    have hf : f = .arithmetic (start + .ofNat n * step) step infallible (0 + n) :=
      Feed.after_arithmetic n start 0
    rw [hf]
    refine ⟨fun j => ?_, Feed.exists_yields_arithmetic moves⟩
    rw [Feed.reply_arithmetic, Int64.ofNat_add]
    congr 1
    grind
  · intro p rs r p'
    exact (Progression.decides ε p).yields_iff

/-- Two reserved values, then a failure: the source is asked three times, the call under stamps
ends with the failure, and the hi value behind it is still to come. An arithmetic sequence that
stands at the reserved value is asked twice. -/
theorem draw_takes_first_other_after_reserved :
    let S := Feed.source
    let feed := Feed.ofSupply (.script (.ofList
      [.value reserved, .value reserved, .failure .unit, .value 7] false)) false
    S.Decides feed 2 ∧ S.drawWithin 3 feed = ⟨some (.failure .unit), 2, S.after 3 feed⟩ ∧
      (S.drawWithin 2 feed).reply = none ∧ S.reply 3 feed = .value 7 ∧
      (∃ q, Performs S .poisoning (Check.version.drawThen fun hi => .finish (.claimed hi 0)) .fresh
          feed q ∧
        q.ending = .failed (.source .unit) ∧ q.source = S.after 3 feed) ∧
      ∃ rs hi f, S.Yields (.ofSupply (.arithmetic reserved 1) false) rs (.value hi) f ∧
        rs.length ≤ 2 ∧ f.requests = 0 + rs.length := by
  intro S feed
  have hdecides : S.Decides feed 2 :=
    Source.decides_succ.mpr ⟨rfl, Source.decides_succ.mpr ⟨rfl, Source.decides_zero.mpr nofun⟩⟩
  obtain ⟨-, hdraws, -, harithmetic, -⟩ := draw_takes_first_other S feed
  obtain ⟨-, hwithin, hcalls⟩ := hdraws 2 hdecides
  obtain ⟨q, hq, hend, hsource, -⟩ :=
    (hcalls _ _ (.counting .version _)).failure .poisoning .fresh .unit rfl
  exact ⟨hdecides, hwithin 3, congrArg Draw.reply (hwithin 2), rfl, ⟨q, hq, hend, hsource⟩,
    (harithmetic reserved 1 false 0 (by decide)).2⟩

end HiLo
