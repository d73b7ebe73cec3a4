/-
HiLo.Proofs.Numbering — which identifier a call gets.

The identifiers of a run are numbered from zero, and so are the usable hi
values that its source answered. `fresh_run_numbering` gives the run in closed
form: the identifier number `i` is the pair of the hi number `i / size` and the
lo `i % size`; a call asks the source exactly when there is no hi yet or every
identifier of every hi so far was handed out; and after any number of calls the
source has given just enough hi values for the identifiers. Calls that fail
take no part in the count, so they lose, repeat and reorder nothing.

`Tallied` is the invariant: what was shown so far against the stock that is
left.
-/
import HiLo.Proofs.Runs
import HiLo.Proofs.Values
import HiLo.Source.Progression

namespace HiLo

variable {σ ε : Type}

/-! ## What a run has handed out and taken in -/

/-- The identifiers that calls got, in order. -/
def ids (vs : List (Shown σ ε)) : List Int64 := vs.filterMap (·.outcome.id?)

/-- The usable hi values that the source answered in calls, in order. -/
def usable (vs : List (Shown σ ε)) : List Int64 :=
  (vs.flatMap (·.answers)).filterMap Reply.usable?

theorem ids_append (vs : List (Shown σ ε)) (v : Shown σ ε) :
    ids (vs ++ [v]) = ids vs ++ v.outcome.id?.toList := by
  simp only [ids, List.filterMap_append, List.append_cancel_left_eq]
  cases h : v.outcome.id? <;> simp [h]

theorem usable_append (vs : List (Shown σ ε)) (v : Shown σ ε) :
    usable (vs ++ [v]) = usable vs ++ v.answers.filterMap Reply.usable? := by
  simp [usable]

/-! ## Numbered identifiers -/

/-- The identifier number `i` is made of the hi number `i / size` and the lo
`i % size`. -/
def Numbered (L : Layout) (his ids : List Int64) : Prop :=
  ∀ i id, ids[i]? = some id →
    ∃ hi, his[i / L.size]? = some hi ∧ L.compose hi (.ofNat (i % L.size)) = .ok id

namespace Numbered

variable {L : Layout} {his ids : List Int64}

theorem more (h : Numbered L his ids) (hi : Int64) : Numbered L (his ++ [hi]) ids := by
  intro i id hid
  obtain ⟨hi', hhi, hcompose⟩ := h i id hid
  obtain ⟨hlt, -⟩ := List.getElem?_eq_some_iff.mp hhi
  exact ⟨hi', by rw [List.getElem?_append_left hlt, hhi], hcompose⟩

theorem snoc (h : Numbered L his ids) {hi id : Int64}
    (hhi : his[ids.length / L.size]? = some hi)
    (hid : L.compose hi (.ofNat (ids.length % L.size)) = .ok id) :
    Numbered L his (ids ++ [id]) := by
  intro i id' hid'
  rcases Nat.lt_trichotomy i ids.length with hlt | rfl | hgt
  · rw [List.getElem?_append_left hlt] at hid'
    exact h i id' hid'
  · rw [List.getElem?_concat_length, Option.some.injEq] at hid'
    exact ⟨hi, hhi, hid' ▸ hid⟩
  · rw [List.getElem?_eq_none (by simp; omega)] at hid'
    cases hid'

end Numbered

/-- Every lo of a block makes an identifier with a hi that is not reserved. -/
theorem Layout.exists_compose (L : Layout) {hi : Int64} {lo : Nat} (hhi : hi ≠ reserved)
    (hlo : lo < L.size) : ∃ id, L.compose hi (.ofNat lo) = .ok id :=
  ⟨_, compose_ofNat hhi hlo⟩

/-! ## The invariant of a run -/

/-- What was shown so far, against the stock that is left. -/
inductive Tallied (L : Layout) (vs : List (Shown σ ε)) : Stock → Prop where
  | none (his : usable vs = []) (given : ids vs = []) : Tallied L vs .none
  | block {hi : Int64} {given : Nat} {his : List Int64} (usable : usable vs = his ++ [hi])
      (count : (ids vs).length = L.size * his.length + given) (some : 0 < given)
      (le : given ≤ L.size) (ne : hi ≠ reserved) (numbered : Numbered L (his ++ [hi]) (ids vs)) :
      Tallied L vs (.block hi given)

namespace Tallied

variable {L : Layout} {vs : List (Shown σ ε)} {k : Stock}

/-- The identifiers handed out are numbered by the hi values taken in. -/
theorem isNumbered (h : Tallied L vs k) : Numbered L (usable vs) (ids vs) := by
  cases h with
  | none _ given =>
    rw [given]
    intro i id hid
    simp at hid
  | block husable _ _ _ _ hnumbered => rwa [husable]

/-- The hi values taken in are just enough for the identifiers handed out. -/
theorem length_usable (h : Tallied L vs k) :
    (usable vs).length = ((ids vs).length + L.size - 1) / L.size := by
  have hpos := L.size_pos
  cases h with
  | none his given =>
    rw [his, given, List.length_nil, Nat.div_eq_of_lt (by omega)]
  | @block hi given his husable count some le ne numbered =>
    have hsum : L.size * his.length + given + L.size - 1
        = (given - 1) + L.size * (his.length + 1) := by
      rw [Nat.mul_add]
      omega
    rw [husable, count, hsum, Nat.add_mul_div_left _ _ hpos, Nat.div_eq_of_lt (by omega)]
    simp

/-- A stock has nothing left exactly when there is no hi yet or every identifier
of every hi was handed out. -/
theorem spent_iff (h : Tallied L vs k) :
    (∀ hi given, k = .block hi given → L.size ≤ given) ↔
      usable vs = [] ∨ (ids vs).length = L.size * (usable vs).length := by
  cases h with
  | none his given => exact iff_of_true nofun (.inl his)
  | @block hi given his husable count some le ne numbered =>
    have hlength : (usable vs).length = his.length + 1 := by simp [husable]
    rw [hlength, count, Nat.mul_add]
    constructor
    · intro hspent
      have := hspent hi given rfl
      exact .inr (by omega)
    · rintro (hnil | hall)
      · simp [husable] at hnil
      · rintro _ _ ⟨⟩
        omega

/-- What was shown may be seen with one more call that had no identifier and
brought no hi. -/
theorem idle (h : Tallied L vs k) {v : Shown σ ε} (hid : v.outcome.id? = Option.none)
    (hhi : v.answers.filterMap Reply.usable? = []) : Tallied L (vs ++ [v]) k := by
  have hids : ids (vs ++ [v]) = ids vs := by simp [ids_append, hid]
  have husable : usable (vs ++ [v]) = usable vs := by simp [usable_append, hhi]
  cases h with
  | none h1 h2 => exact .none (by rw [husable, h1]) (by rw [hids, h2])
  | block h1 h2 h3 h4 h5 h6 =>
    exact .block (by rw [husable, h1]) (by rw [hids, h2]) h3 h4 h5 (by rwa [hids])

/-- A call that hands out the next identifier of the last hi keeps the tally. -/
theorem claim {hi : Int64} {given : Nat} {his : List Int64} {s : σ} {rs : List (Reply ε)}
    (room : given < L.size) (ne : hi ≠ reserved)
    (count : (ids vs).length = L.size * his.length + given)
    (numbered : Numbered L (his ++ [hi]) (ids vs))
    (husable : usable vs ++ rs.filterMap Reply.usable? = his ++ [hi]) :
    Tallied L (vs ++ [⟨(Ending.claimed hi (.ofNat given) : Ending ε).outcome L, s, rs⟩])
      (.block hi (given + 1)) := by
  obtain ⟨id, hid⟩ := L.exists_compose ne room
  have hids : ids (vs ++ [⟨(Ending.claimed hi (.ofNat given) : Ending ε).outcome L, s, rs⟩])
      = ids vs ++ [id] := by
    simp [ids_append, Ending.outcome, hid, Outcome.id?]
  have hdiv : (ids vs).length / L.size = his.length := by
    rw [count, Nat.mul_add_div L.size_pos, Nat.div_eq_of_lt room, Nat.add_zero]
  have hmod : (ids vs).length % L.size = given := by
    rw [count, Nat.mul_add_mod, Nat.mod_eq_of_lt room]
  have hnumbered : Numbered L (his ++ [hi]) (ids vs ++ [id]) :=
    numbered.snoc (by rw [hdiv, List.getElem?_concat_length]) (by rw [hmod, hid])
  refine .block (by rw [usable_append, husable]) ?_ (by omega) room ne (by rwa [hids])
  rw [hids, List.length_append, count]
  rfl

/-- A block with room hands out its next identifier. -/
theorem next {hi : Int64} {given : Nat} (h : Tallied L vs (.block hi given))
    (room : given < L.size) (s : σ) :
    Tallied L (vs ++ [⟨(Ending.claimed hi (.ofNat given) : Ending ε).outcome L, s, []⟩])
      (.block hi (given + 1)) := by
  cases h with
  | block husable count some le ne numbered =>
    exact claim room ne count numbered (by simpa using husable)

/-- A new hi, drawn when nothing was left, hands out its first identifier. -/
theorem start (h : Tallied L vs k) (hspent : ∀ hi given, k = .block hi given → L.size ≤ given)
    {hi : Int64} (ne : hi ≠ reserved) (s : σ) {rs : List (Reply ε)}
    (hrs : rs.filterMap Reply.usable? = [hi]) :
    Tallied L (vs ++ [⟨(Ending.claimed hi 0 : Ending ε).outcome L, s, rs⟩]) (.block hi 1) := by
  have hcount : (ids vs).length = L.size * (usable vs).length := by
    cases h with
    | none his given => simp [his, given]
    | @block hi' given his husable count some le ne numbered =>
      have := hspent hi' given rfl
      rw [count, husable, List.length_append, List.length_singleton, Nat.mul_add]
      omega
  exact claim L.size_pos ne hcount (h.isNumbered.more hi) (by rw [hrs])

/-- **One call keeps the tally.** -/
theorem serve (h : Tallied L vs k) (S : Source σ ε) (s : σ) :
    Tallied L (vs ++ [(k.serve S L.size s).shown L]) (k.serve S L.size s).stock := by
  rcases Stock.serve_cases S L.size k s with ⟨hi, given, rfl, room, heq⟩ | ⟨hspent, heq⟩
  · rw [heq]
    exact h.next room s
  · have hanswers := (S.draw s).filterMap_answers
    rw [heq]
    unfold Stock.refill Stock.ended Stock.refilled Served.shown
    cases hr : (S.draw s).reply with
    | none => exact h.idle rfl (by rw [hanswers, hr]; rfl)
    | some r =>
      rw [hr] at hanswers
      cases r with
      | value hi =>
        have ne := Source.draw_ne_reserved hr
        exact h.start hspent ne _ (by rw [hanswers]; simp [Reply.usable?, ne])
      | failure cause => exact h.idle rfl (by rw [hanswers]; rfl)
      | crash text => exact h.idle rfl (by rw [hanswers]; rfl)

/-- Before each call of a run the tally holds of some stock, and the call is one
on this stock. -/
theorem exists_take {S : Source σ ε} (n : Nat) :
    ∀ {vs : List (Shown σ ε)} {k : Stock} {s : σ}, Tallied L vs k → ∀ j ≤ n,
      ∃ k' s', Tallied L (vs ++ ((k.serves S L.size n s).map (Served.shown L)).take j) k' ∧
        ∀ v, ((k.serves S L.size n s).map (Served.shown L))[j]? = some v →
          v = (k'.serve S L.size s').shown L := by
  induction n with
  | zero =>
    intro vs k s h j hj
    obtain rfl := Nat.le_zero.mp hj
    exact ⟨k, s, by simpa [Stock.serves] using h, nofun⟩
  | succ n ih =>
    intro vs k s h j hj
    cases j with
    | zero => exact ⟨k, s, by simpa using h, fun v hv => by simp_all [Stock.serves]⟩
    | succ j =>
      obtain ⟨k', s', htallied, hnext⟩ := ih (h.serve S s) j (Nat.le_of_succ_le_succ hj)
      exact ⟨k', s', by simpa [Stock.serves] using htallied, by simpa [Stock.serves] using hnext⟩

end Tallied

/-- A call on a stock that settles asks the source exactly when nothing is
left. -/
theorem Stock.answers_ne_nil_iff {S : Source σ ε} {size : Nat} {k : Stock} {s : σ}
    (h : (k.serve S size s).ending ≠ .unsettled) :
    (k.serve S size s).answers ≠ [] ↔ ∀ hi given, k = .block hi given → size ≤ given := by
  rcases Stock.serve_cases S size k s with ⟨hi, given, rfl, room, heq⟩ | ⟨hspent, heq⟩
  · rw [heq]
    refine iff_of_false (· rfl) fun hspent => ?_
    have := hspent hi given rfl
    omega
  · refine iff_of_true ?_ hspent
    rw [heq] at h ⊢
    simp only [Stock.refill, Draw.answers, ne_eq, List.append_eq_nil_iff, not_and]
    intro _
    cases hr : (S.draw s).reply with
    | some r => simp
    | none => simp [Stock.refill, Stock.ended, hr] at h

/-! ## Runs in closed form -/

/-- **The identifiers of a new generator.** In every run of fewer than `2 ^ 62`
calls on a new generator, without crashes where they spoil locks: identifier
number `i` is made of the usable hi number `i / size` and the lo `i % size`; a
call asks the source exactly when there is no hi yet or the identifiers of every
hi were all handed out; and however many calls were made, their identifiers took
just enough hi values. -/
theorem fresh_run_numbering {S : Source σ ε} {kind : LockKind} {L : Layout} {n : Nat} {s : σ}
    {cs : List (Called σ ε)} (hn : n < 2 ^ 62) (hcalm : kind = .poisoning → S.CalmFrom s)
    (h : FreshRun S kind L n s cs) :
    let vs := cs.map Called.shown
    Numbered L (usable vs) (ids vs) ∧
      (∀ j v, vs[j]? = some v → v.outcome ≠ .unsettled → (v.answers ≠ [] ↔
        usable (vs.take j) = [] ∨
          (ids (vs.take j)).length = L.size * (usable (vs.take j)).length)) ∧
      (∀ j ≤ n, (usable (vs.take j)).length =
        ((ids (vs.take j)).length + L.size - 1) / L.size) ∧
      (S.SettlesFrom s → ∀ v ∈ vs, v.outcome ≠ .unsettled) := by
  intro vs
  have hvs : vs = (Stock.none.serves S L.size n s).map (Served.shown L) :=
    h.shown_eq hn.le hcalm
  have hlength : vs.length = n := by simp [hvs]
  have hbegin : Tallied L ([] : List (Shown σ ε)) .none := .none rfl rfl
  have htake := fun j hj => hbegin.exists_take (S := S) (s := s) n j hj
  rw [← hvs] at htake
  refine ⟨?_, fun j v hv hsettled => ?_, fun j hj => ?_, fun hs v hv => ?_⟩
  · obtain ⟨k, -, htallied, -⟩ := htake n (Nat.le_refl n)
    rw [List.nil_append, List.take_of_length_le (by omega)] at htallied
    exact htallied.isNumbered
  · have hj : j < vs.length := (List.getElem?_eq_some_iff.mp hv).1
    obtain ⟨k, s', htallied, hnext⟩ := htake j (by omega)
    obtain rfl := hnext v hv
    have hending : (k.serve S L.size s').ending ≠ .unsettled := fun he =>
      hsettled (by rw [Served.shown, he]; rfl)
    exact (Stock.answers_ne_nil_iff hending).trans htallied.spent_iff
  · obtain ⟨k, -, htallied, -⟩ := htake j hj
    exact htallied.length_usable
  · rw [hvs] at hv
    exact serves_outcome_ne_unsettled hs hv

/-- Two blocks and the beginning of a third. -/
theorem fresh_run_numbering_of_progression :
    let L : Layout := ⟨2, .hilo, by decide⟩
    let calls := Generator.calls (Progression.source Cause) .poisoning 5
      (.fresh (.optimistic 2) L) ⟨3, 2, by decide⟩
    calls.map (·.outcome.id?) = [some 6, some 7, some 10, some 11, some 14] ∧
      Numbered L (usable (calls.map Called.shown)) (ids (calls.map Called.shown)) := by
  have hcalm : ∀ p, (Progression.source Cause).CalmFrom p := fun _ _ text h =>
    nomatch (show Reply.value _ = Reply.crash text from h)
  refine ⟨by decide +kernel, ?_⟩
  exact (fresh_run_numbering (n := 5) (by decide) (fun _ => hcalm _) (.direct (.optimistic 2))).1

end HiLo
