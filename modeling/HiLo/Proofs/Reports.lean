/-
HiLo.Proofs.Reports — what a generator reports about its work.

Reports change nothing, and they tell exactly which hi values were adopted
(`reports_tell_adoptions`). A call reports that it has begun, then every reserved value
that the source answers, and then, if it adopts a hi value and the design reports such
a thing, the event. So the events of a run are the usable hi values of the source in
their order: the first one under its own name, the later ones as changes. A design with
the lock around the whole call leaves the first one out, and one without a lock tells of
none.

`Reports` is what one call does, wherever its design draws (`DrawsFor.reports`), and
`Chronicle` what holds between two calls. Neither looks at lo beyond the first block,
so it does not matter how many calls there are or where lo has got to. The two designs
without attempts count in the same way, which `Routine.countOn_of` splits into its three cases.
-/
import HiLo.Proofs.Check
import HiLo.Proofs.Obtaining
import HiLo.Proofs.Rows
import HiLo.Proofs.Values

namespace HiLo

variable {σ ε : Type}

/-! ## Reports of actions -/

def reports (acts : List (Act ε)) : List Note := acts.filterMap Act.note?

theorem reports_append (acts acts' : List (Act ε)) :
    reports (acts ++ acts') = reports acts ++ reports acts' :=
  List.filterMap_append

def reservedAnswers (acts : List (Act ε)) : Nat :=
  (acts.filterMap Act.answer?).countP Reply.isReserved

/-- A draw reports nothing but the reserved values that it has got. -/
theorem Draw.reports_acts {S : Source σ ε} {s : σ} :
    reports (S.draw s).acts = List.replicate (S.draw s).skipped .reservedAnswer := by
  have hskipped : (Act.asked (.value reserved : Reply ε)).note? = some .reservedAnswer := rfl
  unfold Draw.acts
  rw [reports_append]
  cases hr : (S.draw s).reply with
  | none => simp [reports, hskipped]
  | some r =>
    have hlast : (Act.asked r).note? = none := by
      simp [Act.note?, (Source.draw_some hr).2.2]
    simp [reports, hskipped, hlast]

theorem Draw.reservedAnswers_acts {S : Source σ ε} {s : σ} :
    reservedAnswers (S.draw s).acts = (S.draw s).skipped := by
  have hskipped : (Reply.value reserved : Reply ε).isReserved = true := Reply.isReserved_iff.mpr rfl
  unfold reservedAnswers
  rw [Draw.filterMap_acts, Draw.answers, List.countP_append, List.countP_replicate, if_pos hskipped]
  cases hr : (S.draw s).reply with
  | none => simp
  | some r => simp [(Source.draw_some hr).2.2]

/-- What actions tell of changes, in order. -/
def changes (acts : List (Act ε)) : List Note := (reports acts).filter (·.level = .debug)

theorem changes_append (acts acts' : List (Act ε)) :
    changes (acts ++ acts') = changes acts ++ changes acts' := by
  simp [changes, reports_append]

/-! ## What a design tells of hi values -/

/-- Tells of hi values that were adopted in order: of the first one under its own name, and of the
later ones as steps. -/
def adoptions : List Int64 → List Note
  | [] => []
  | hi :: his => .initialized hi :: his.map .advanced

theorem adoptions_told (his : List Int64) :
    (adoptions his).map (fun x => (x.message?, x.hi?))
      = his.mapIdx fun i hi =>
        (some (if i = 0 then "initialized hi" else "advanced hi"), some hi) := by
  cases his with
  | nil => rfl
  | cons hi his =>
    apply List.ext_getElem?
    intro i
    cases i <;> simp [adoptions, Note.message?, Note.hi?, Function.comp_def]

namespace Design

/-- What a design tells of a hi value that it adopts, the first one or a later one. -/
def adoption (d : Design) (first : Bool) (hi : Int64) : List Note :=
  match d with
  | .plain => []
  | .locked => if first then [] else [.advanced hi]
  | .optimistic _ | .stamped _ => if first then [.initialized hi] else [.advanced hi]

def story (d : Design) (his : List Int64) : List Note :=
  match d with
  | .plain => []
  | .locked => (adoptions his).tail
  | .optimistic _ | .stamped _ => adoptions his

/-- One more hi value, or none, adds what the design tells of it. -/
theorem story_append (d : Design) (his : List Int64) {more : List Int64} (few : more.length ≤ 1) :
    d.story (his ++ more) = d.story his ++ more.flatMap (d.adoption his.isEmpty) := by
  match more with
  | [] => simp
  | [hi] =>
    cases his with
    | nil => cases d <;> rfl
    | cons first his => cases d <;> simp [story, adoptions, adoption]
  | _ :: _ :: _ => simp at few

/-- Whatever a design tells of hi values is a change. -/
theorem filter_adoption (d : Design) (first : Bool) (his : List Int64) :
    (his.flatMap (d.adoption first)).filter (·.level = .debug)
      = his.flatMap (d.adoption first) := by
  rw [List.filter_eq_self]
  intro x hx
  obtain ⟨hi, -, hx⟩ := List.mem_flatMap.mp hx
  cases d <;> cases first <;> simp_all [adoption, Note.level]

end Design

/-! ## What a call makes of its answers -/

/-- How a call ends with its last answer: with the first pair of a new block, with the failure,
or in the crash. -/
def Reply.ending : Reply ε → Ending ε
  | .value hi => .claimed hi 0
  | .failure cause => .failed (.source cause)
  | .crash text => .crashed text

/-- A call that began with a given hi has adopted the usable hi value that it got, if there was
one, has reported it with its event, behind a warning for each reserved value, and has ended as its
last answer says. Cells without a hi have their lo where it was at first. -/
structure Reports (event : Int64 → List Note) (hi : Int64) (p : Performed σ ε) : Prop where
  notes : reports p.acts = List.replicate (reservedAnswers p.acts) .reservedAnswer
    ++ (usables p.acts).flatMap event
  hi : p.memory.hi = (usables p.acts).getLast?.getD hi
  few : (usables p.acts).length ≤ 1
  untouched : p.memory.hi = reserved → p.memory.lo = -1
  ending : ∀ r ∈ p.acts.filterMap Act.answer?, r.isReserved = false → p.ending = r.ending

/-- The rest of a call that was told an answer. -/
structure Told (event : Int64 → List Note) (hi : Int64) (r : Reply ε) (p : Performed σ ε) :
    Prop where
  notes : reports p.acts = r.usable?.toList.flatMap event
  silent : p.acts.filterMap Act.answer? = []
  hi : p.memory.hi = r.usable?.getD hi
  untouched : p.memory.hi = reserved → p.memory.lo = -1
  ending : p.ending = r.ending

section Calls

variable {S : Source σ ε} {kind : LockKind} {L : Layout} {m : Memory} {s : σ} {hi : Int64}
  {event : Int64 → List Note} {p : Performed σ ε}

/-- A usable value that was adopted. -/
theorem Told.value {first : Int64} (useful : first ≠ reserved)
    (notes : reports p.acts = event first) (silent : p.acts.filterMap Act.answer? = [])
    (adopted : p.memory.hi = first) (ending : p.ending = .claimed first 0) :
    Told event hi (.value first) p := by
  have husable : (Reply.value first : Reply ε).usable? = some first := if_neg useful
  constructor
  · simp [husable, notes]
  · exact silent
  · rw [husable, adopted]
    rfl
  · intro h
    exact absurd (adopted.symm.trans h) useful
  · exact ending

/-- Quitting leaves hi and lo, and says nothing. -/
theorem Quits.told {e : Ending ε} {r : Routine ε} {a : Reply ε} (h : Quits e r)
    (none : a.usable? = none) (ending : e = a.ending) :
    ∀ (m : Memory) (s : σ), (m.hi = reserved → m.lo = -1) →
      Told event m.hi a (r.run S kind m s) := by
  induction h with
  | finish =>
    intro m s untouched
    exact ⟨by rw [none]; rfl, rfl, by rw [none]; rfl, untouched, ending⟩
  | release _ ih =>
    intro m s untouched
    exact { ih (m.released kind _) s untouched with }
  | bumpVersion _ ih =>
    intro m s untouched
    exact { ih { m with version := m.version + 1 } s untouched with }

namespace Reports

/-- Other actions do not matter. -/
theorem prepend {a : Act ε} (note : a.note? = none) (silent : a.answer? = none)
    (h : Reports event hi p) : Reports event hi (p.prepend a) := by
  have husables : usables (p.prepend a).acts = usables p.acts := by
    simp [usables, Performed.prepend, silent]
  have hreserved : reservedAnswers (p.prepend a).acts = reservedAnswers p.acts := by
    simp [reservedAnswers, Performed.prepend, silent]
  have hreports : reports (p.prepend a).acts = reports p.acts := by
    simp [reports, Performed.prepend, note]
  constructor
  · rw [hreports, husables, hreserved]
    exact h.notes
  · rw [husables]
    exact h.hi
  · rw [husables]
    exact h.few
  · exact h.untouched
  · intro r hr
    apply h.ending
    simpa [Performed.prepend, silent] using hr

/-- A call that asks nothing and says nothing keeps its hi. -/
theorem quiet (notes : reports p.acts = []) (silent : p.acts.filterMap Act.answer? = [])
    (kept : p.memory.hi = hi) (untouched : p.memory.hi = reserved → p.memory.lo = -1) :
    Reports event hi p := by
  have husables : usables p.acts = [] := by simp [usables, silent]
  constructor
  · simp [notes, husables, reservedAnswers, silent]
  · simpa [husables] using kept
  · simp [husables]
  · exact untouched
  · simp [silent]

theorem readHi {rest : Int64 → Routine ε} (h : Reports event hi ((rest m.hi).run S kind m s)) :
    Reports event hi ((Routine.readHi rest).run S kind m s) :=
  h.prepend rfl rfl

theorem bumpLo {rest : Int64 → Routine ε}
    (h : Reports event hi ((rest (m.lo + 1)).run S kind { m with lo := m.lo + 1 } s)) :
    Reports event hi ((Routine.bumpLo rest).run S kind m s) :=
  h.prepend rfl rfl

theorem readVersion {rest : UInt64 → Routine ε}
    (h : Reports event hi ((rest m.version).run S kind m s)) :
    Reports event hi ((Routine.readVersion rest).run S kind m s) :=
  h.prepend rfl rfl

theorem bumpVersion {rest : Routine ε}
    (h : Reports event hi (rest.run S kind { m with version := m.version + 1 } s)) :
    Reports event hi ((Routine.bumpVersion rest).run S kind m s) :=
  h.prepend rfl rfl

/-- At a lock that is spoiled a call ends at once. -/
theorem acquire {rest : Routine ε} (untouched : m.hi = reserved → m.lo = -1)
    (h : Reports event m.hi (rest.run S kind m s)) :
    Reports event m.hi ((Routine.acquire rest).run S kind m s) := by
  simp only [Routine.run]
  split
  · exact quiet rfl rfl rfl untouched
  · exact h.prepend rfl rfl

/-- A call that draws reports the reserved values, and goes on with the answer. -/
theorem draw {f : Reply ε → Routine ε} (untouched : m.hi = reserved → m.lo = -1)
    (rest : ∀ r s, r.isReserved = false → Told event m.hi r ((f r).run S kind m s)) :
    Reports event m.hi ((Routine.draw f).run S kind m s) := by
  have hanswers := (S.draw s).filterMap_answers
  simp only [Routine.run]
  cases hr : (S.draw s).reply with
  | none =>
    have husables : usables (S.draw s).acts = [] := by
      rw [usables, Draw.filterMap_acts, hanswers, hr]
      rfl
    have hreserved : ∀ r ∈ (S.draw s).answers, r.isReserved = true := by
      simp [Draw.answers, hr, List.mem_replicate, Reply.isReserved_iff]
    constructor
    · simp [Draw.reports_acts, Draw.reservedAnswers_acts, husables]
    · simp [husables]
    · simp [husables]
    · exact untouched
    · intro r hmem hother
      rw [Draw.filterMap_acts] at hmem
      exact absurd (hreserved r hmem) (by simp [hother])
  | some r =>
    have hother := (Source.draw_some hr).2.2
    have htold := rest r (S.draw s).state hother
    have hacts : ((S.draw s).acts ++ ((f r).run S kind m (S.draw s).state).acts).filterMap
        Act.answer? = (S.draw s).answers := by
      rw [List.filterMap_append, Draw.filterMap_acts, htold.silent, List.append_nil]
    have husables : usables ((S.draw s).acts ++ ((f r).run S kind m (S.draw s).state).acts)
        = r.usable?.toList := by
      rw [usables, hacts, hanswers, hr]
      rfl
    have hreserved : reservedAnswers
        ((S.draw s).acts ++ ((f r).run S kind m (S.draw s).state).acts) = (S.draw s).skipped := by
      rw [reservedAnswers, hacts, ← Draw.filterMap_acts]
      exact Draw.reservedAnswers_acts
    dsimp only
    constructor
    · rw [reports_append, Draw.reports_acts, htold.notes, husables, hreserved]
    · rw [husables, htold.hi]
      cases r.usable? <;> rfl
    · rw [husables]
      cases r.usable? <;> simp
    · exact htold.untouched
    · intro a hmem ha
      rw [hacts, Draw.answers, hr] at hmem
      have heq : a = r := by
        simpa [List.mem_replicate, Reply.isReserved_eq_false_iff.mp ha] using hmem
      rw [heq]
      exact htold.ending

end Reports

/-- **Wherever a design draws, its call reports what it adopts**, if it does so with a value. -/
theorem DrawsFor.reports {adopt : Int64 → Routine ε} {r : Routine ε} (h : DrawsFor adopt r)
    (untouched : m.hi = reserved → m.lo = -1)
    (value : ∀ first s, first ≠ reserved →
      Told event m.hi (.value first) ((adopt first).run S kind m s)) :
    Reports event m.hi (r.run S kind m s) := by
  obtain ⟨f, rfl, hvalue, hfailure, hcrash⟩ := h.exists_rest
  apply Reports.draw untouched
  intro a s ha
  cases a with
  | value first =>
    rw [hvalue]
    exact value first s (Reply.isReserved_value.mp ha)
  | failure cause => exact (hfailure cause).told rfl rfl m s untouched
  | crash text => exact (hcrash text).told rfl rfl m s untouched

/-! ## The designs report -/

/-- With lo where it was at first, the next one is the first of the block. -/
theorem next_of_untouched (h : m.lo = -1) : m.lo + 1 = 0 := by
  rw [h]
  rfl

/-- Whoever counts on goes one of three ways. A block that is used up has a hi: without one, lo is
where it was at first, and the next one is the first of the block. -/
theorem Routine.countOn_of {P : Performed σ ε → Prop} {spent : Routine ε}
    {first : Int64 → Routine ε} {commit : Int64 → Int64 → Routine ε}
    (untouched : m.hi = reserved → m.lo = -1)
    (hspent : m.hi ≠ reserved → P ((spent.run S kind m s).prepend (.sawLo m.lo)))
    (hfirst : m.hi = reserved →
      P ((((first 0).run S kind m s).prepend (.sawHi m.hi)).prepend (.sawLo m.lo)))
    (hcommit : m.hi ≠ reserved → m.lo + 1 < L.capacity →
      P ((((commit m.hi (m.lo + 1)).run S kind m s).prepend (.sawHi m.hi)).prepend (.sawLo m.lo))) :
    P ((countOn L spent first commit).run S kind m s) := by
  unfold countOn
  simp only [Routine.run]
  by_cases hnone : m.hi = reserved
  · have hinside : ¬ L.capacity ≤ (0 : Int64) := Int64.not_le.mpr L.positive
    rw [next_of_untouched (untouched hnone), if_neg hinside]
    simp only [Routine.run, if_pos hnone]
    exact hfirst hnone
  by_cases hfull : L.capacity ≤ m.lo + 1
  · rw [if_pos hfull]
    exact hspent hnone
  · simp only [if_neg hfull, Routine.run, if_neg hnone]
    exact hcommit hnone (Int64.not_le.mp hfull)

theorem Plain.routine_reports (untouched : m.hi = reserved → m.lo = -1) :
    ∃ q, (Plain.routine L).run S kind m s = q.prepend (.noted .entered) ∧
      Reports (Design.plain.adoption (m.hi == reserved)) m.hi q := by
  have hdraw : Reports (Design.plain.adoption (m.hi == reserved)) m.hi
      ((Plain.drawFor 0).run S kind m s) := by
    apply (DrawsFor.plain 0).reports untouched
    intro first s hfirst
    exact Told.value hfirst rfl rfl rfl rfl
  refine ⟨_, rfl, Routine.countOn_of untouched ?_ ?_ ?_⟩
  · intro hsome
    exact hdraw.prepend rfl rfl
  · intro hnone
    exact (hdraw.prepend rfl rfl).prepend rfl rfl
  · intro hsome hinside
    exact Reports.quiet rfl rfl rfl fun h => absurd h hsome

theorem Locked.routine_reports (untouched : m.hi = reserved → m.lo = -1) :
    ∃ q, (Locked.routine L).run S kind m s = q.prepend (.noted .entered) ∧
      Reports (Design.locked.adoption (m.hi == reserved)) m.hi q := by
  refine ⟨_, rfl, .acquire untouched (Routine.countOn_of untouched ?_ ?_ ?_)⟩
  · intro hsome
    rw [beq_eq_false_iff_ne.mpr hsome]
    apply Reports.prepend rfl rfl
    apply (DrawsFor.locked _).reports untouched
    intro first s hfirst
    exact Told.value hfirst rfl rfl rfl rfl
  · intro hnone
    rw [beq_iff_eq.mpr hnone]
    apply Reports.prepend rfl rfl
    apply Reports.prepend rfl rfl
    apply (DrawsFor.locked _).reports untouched
    intro first s hfirst
    exact Told.value hfirst rfl rfl rfl rfl
  · intro hsome hinside
    exact Reports.quiet rfl rfl rfl fun h => absurd h hsome

namespace Check

variable (c : Check) (attempts : UInt32)

theorem work_reports (untouched : m.hi = reserved → m.lo = -1) :
    Reports ((c.design attempts).adoption (m.hi == reserved)) m.hi ((c.work L).run S kind m s) := by
  apply Reports.readHi
  by_cases hnone : m.hi = reserved
  · rw [if_pos hnone, beq_iff_eq.mpr hnone]
    apply (DrawsFor.counting c _).reports untouched
    intro first s hfirst
    have hlo := next_of_untouched (untouched hnone)
    cases c with
    | reread => exact Told.value hfirst rfl rfl rfl (congrArg _ hlo)
    | version => exact Told.value hfirst rfl rfl rfl (congrArg _ hlo)
  rw [if_neg hnone, beq_eq_false_iff_ne.mpr hnone]
  apply Reports.bumpLo
  by_cases hfull : L.capacity ≤ m.lo + 1
  · rw [if_pos hfull]
    apply (DrawsFor.counting c _).reports (m := { m with lo := m.lo + 1 }) fun h => absurd h hnone
    intro first s hfirst
    cases c with
    | reread => exact Told.value hfirst rfl rfl rfl rfl
    | version => exact Told.value hfirst rfl rfl rfl rfl
  · rw [if_neg hfull]
    cases c with
    | reread => exact Reports.quiet rfl rfl rfl fun h => absurd h hnone
    | version => exact Reports.quiet rfl rfl rfl fun h => absurd h hnone

theorem exclusive_reports (untouched : m.hi = reserved → m.lo = -1) :
    Reports ((c.design attempts).adoption (m.hi == reserved)) m.hi
      ((c.exclusive L).run S kind m s) := by
  apply Reports.acquire untouched
  cases c with
  | reread => exact reread.work_reports attempts untouched
  | version =>
    apply Reports.bumpVersion
    exact version.work_reports (m := { m with version := m.version + 1 }) attempts untouched

end Check

/-- Whatever is left of the attempts: nothing has come in between when hi is read again. -/
theorem Optimistic.attempt_reports (attempts : UInt32) (n : Nat)
    (untouched : m.hi = reserved → m.lo = -1) :
    Reports ((Design.optimistic attempts).adoption (m.hi == reserved)) m.hi
      ((attempt L n).run S kind m s) := by
  cases n with
  | zero => exact Check.reread.exclusive_reports attempts untouched
  | succ n =>
    rw [attempt_succ]
    apply Reports.readHi
    by_cases hnone : m.hi = reserved
    · rw [if_pos hnone]
      exact Check.reread.exclusive_reports attempts untouched
    have huntouched : m.hi = reserved → m.lo + 1 = -1 := fun h => absurd h hnone
    rw [if_neg hnone]
    apply Reports.bumpLo
    by_cases hfull : L.capacity ≤ m.lo + 1
    · rw [if_pos hfull]
      exact Check.reread.exclusive_reports (m := { m with lo := m.lo + 1 }) attempts huntouched
    · rw [if_neg hfull]
      apply Reports.readHi
      rw [if_pos rfl]
      exact Reports.quiet rfl rfl rfl huntouched

/-- Whatever is left of the attempts. An odd version only leads to the lock. -/
theorem Stamped.attempt_reports (attempts : UInt32) (n : Nat)
    (untouched : m.hi = reserved → m.lo = -1) :
    Reports ((Design.stamped attempts).adoption (m.hi == reserved)) m.hi
      ((attempt L n).run S kind m s) := by
  have hexclusive : Reports ((Design.stamped attempts).adoption (m.hi == reserved)) m.hi
      ((exclusive L).run S kind m s) := Check.version.exclusive_reports attempts untouched
  induction n with
  | zero => exact hexclusive
  | succ n ih =>
    rw [attempt_succ]
    apply Reports.readVersion
    by_cases hodd : m.version % 2 = 1
    · rw [if_pos hodd]
      exact ih
    rw [if_neg hodd]
    apply Reports.readHi
    by_cases hnone : m.hi = reserved
    · rw [if_pos hnone]
      exact hexclusive
    have huntouched : m.hi = reserved → m.lo + 1 = -1 := fun h => absurd h hnone
    rw [if_neg hnone]
    apply Reports.readVersion
    rw [if_neg (not_not_intro rfl)]
    apply Reports.bumpLo
    by_cases hfull : L.capacity ≤ m.lo + 1
    · rw [if_pos hfull]
      exact Check.version.exclusive_reports (m := { m with lo := m.lo + 1 }) attempts huntouched
    · rw [if_neg hfull]
      apply Reports.readVersion
      rw [if_pos rfl]
      exact Reports.quiet rfl rfl rfl huntouched

variable (S kind L s) in
/-- **A call reports what it adopts**, whatever its design: once it has begun, it warns of the
reserved values and tells of the hi value that it got. -/
theorem Design.routine_reports (d : Design) (untouched : m.hi = reserved → m.lo = -1) :
    ∃ q, (d.routine L).run S kind m s = q.prepend (.noted .entered) ∧
      Reports (d.adoption (m.hi == reserved)) m.hi q := by
  cases d with
  | plain => exact Plain.routine_reports untouched
  | locked => exact Locked.routine_reports untouched
  | optimistic attempts => exact ⟨_, rfl, Optimistic.attempt_reports attempts _ untouched⟩
  | stamped attempts => exact ⟨_, rfl, Stamped.attempt_reports attempts _ untouched⟩

/-- So a call ends as its last answer says. -/
theorem Design.routine_ending (d : Design) (untouched : m.hi = reserved → m.lo = -1) {r : Reply ε}
    (asked : .asked r ∈ ((d.routine L).run S kind m s).acts) (other : r.isReserved = false) :
    ((d.routine L).run S kind m s).ending = r.ending := by
  obtain ⟨q, hq, hreports⟩ := d.routine_reports S kind L s untouched
  rw [hq] at asked ⊢
  refine hreports.ending r (List.mem_filterMap.mpr ⟨.asked r, ?_, rfl⟩) other
  simpa [Performed.prepend] using asked

/-- A call that adopts a hi value returns an identifier. -/
theorem Reports.exists_id (h : Reports event hi p) (adopted : usables p.acts ≠ []) :
    ∃ id, (p.ending.outcome L).id? = some id := by
  obtain ⟨first, hfirst⟩ := List.exists_mem_of_ne_nil _ adopted
  obtain ⟨r, hr, husable⟩ := List.mem_filterMap.mp hfirst
  have huseful := Reply.ne_reserved_of_usable? husable
  cases r with
  | value got =>
    obtain rfl : got = first := by
      rw [Reply.usable?] at husable
      split at husable
      · cases husable
      · exact Option.some.inj husable
    have hend := h.ending _ hr (Reply.isReserved_value.mpr huseful)
    have hcompose := L.compose_eq_ok huseful (Int64.le_refl 0) L.positive
    rw [hend, Reply.ending, Ending.outcome, hcompose]
    exact ⟨_, rfl⟩
  | failure cause => cases husable
  | crash text => cases husable

/-- What a whole call tells of changes is what it tells of the hi value that it adopts. -/
theorem Reports.changes_entered {d : Design} {first : Bool} (h : Reports (d.adoption first) hi p) :
    changes (.noted .entered :: p.acts) = (usables p.acts).flatMap (d.adoption first) := by
  have hnotes : reports (.noted .entered :: p.acts) = .entered :: reports p.acts := rfl
  rw [changes, hnotes, h.notes, List.filter_cons_of_neg (by decide), List.filter_append,
    List.filter_replicate_of_neg (by decide), List.nil_append, d.filter_adoption]

/-! ## Calls in a row -/

/-- What holds between two calls in a row. The cells have the last hi value that the source
answered, or none and their lo where it was at first, and every hi value so far was told of. -/
structure Chronicle (d : Design) (past : List (Called σ ε)) (m : Memory) : Prop where
  hi : m.hi = (usables (actsOf past)).getLast?.getD reserved
  untouched : m.hi = reserved → m.lo = -1
  told : changes (actsOf past) = d.story (usables (actsOf past))

namespace Chronicle

variable {d : Design} {past : List (Called σ ε)}

/-- Before the first call there is no hi, and nothing to tell of. -/
theorem fresh (d : Design) : Chronicle d ([] : List (Called σ ε)) .fresh :=
  ⟨rfl, fun _ => rfl, by cases d <;> rfl⟩

/-- There is no hi as long as none was answered. -/
theorem beq_reserved (h : Chronicle d past m) :
    (m.hi == reserved) = (usables (actsOf past)).isEmpty := by
  rw [h.hi]
  cases hlast : (usables (actsOf past)).getLast? with
  | none =>
    rw [List.getLast?_eq_none_iff.mp hlast]
    rfl
  | some hi =>
    have hmem := List.mem_of_getLast? hlast
    rw [List.isEmpty_eq_false_iff.mpr (List.ne_nil_of_mem hmem)]
    exact beq_eq_false_iff_ne.mpr (ne_reserved_of_mem_usables hmem)

/-- A call adds what its design tells of the hi value that it adopts, if it adopts one. -/
theorem call (h : Chronicle d past m) :
    let c := Generator.call S kind ⟨d, L, m⟩ s
    Chronicle d (past ++ [c]) c.generator.memory ∧
      ∃ events, reports c.acts
          = .entered :: (List.replicate (reservedAnswers c.acts) .reservedAnswer ++ events) ∧
        d.story (usables (actsOf (past ++ [c]))) = d.story (usables (actsOf past)) ++ events ∧
        (c.outcome.id? = none → events = []) := by
  intro c
  obtain ⟨q, hq, hreports⟩ := d.routine_reports S kind L s h.untouched
  rw [h.beq_reserved] at hreports
  have hc : c = ⟨q.ending, ⟨d, L, q.memory⟩, q.source, .noted .entered :: q.acts⟩ := by
    simp only [c, Generator.call, hq]
    rfl
  have husables : usables c.acts = usables q.acts := by
    rw [hc]
    rfl
  have hacts : actsOf (past ++ [c]) = actsOf past ++ c.acts := by
    rw [actsOf_append, actsOf_singleton]
  have hstory := d.story_append (usables (actsOf past)) hreports.few
  rw [← husables, ← usables_append, ← hacts] at hstory
  refine ⟨⟨?_, ?_, ?_⟩, _, ?_, hstory, ?_⟩
  · rw [hacts, usables_append, husables, List.getLast?_append, hc, hreports.hi, h.hi]
    cases (usables q.acts).getLast? <;> rfl
  · rw [hc]
    exact hreports.untouched
  · rw [hstory, ← h.told, hacts, changes_append, husables, ← hreports.changes_entered, hc]
  · rw [husables, hc]
    exact congrArg (.entered :: ·) hreports.notes
  · intro hnone
    by_contra hevents
    have hadopted : usables q.acts ≠ [] := by
      intro hnil
      apply hevents
      rw [husables, hnil]
      rfl
    obtain ⟨id, hid⟩ := hreports.exists_id (L := L) hadopted
    rw [Called.outcome, hc] at hnone
    exact absurd (hid.symm.trans hnone) (Option.some_ne_none id)

end Chronicle

/-! ## The whole of it -/

/-- **Reports tell exactly which hi values were adopted.** All changes that any number of calls
tell of are those of the usable hi values that the source has answered, in order: the first one is
initialized and the later ones are advances, each with its value. A design with the lock around the
whole call leaves the first one out, and one without a lock leaves out all. Each call reports that
it has begun, then every reserved value, and then what it adds to the story, which is nothing unless
it returns an identifier. -/
theorem reports_tell_adoptions (S : Source σ ε) (kind : LockKind) (d : Design) (L : Layout)
    (n : Nat) (s : σ) :
    let cs := Generator.calls S kind n (.fresh d L) s
    let his := usables (actsOf cs)
    changes (actsOf cs) = d.story his ∧
    his = S.usables ((actsOf cs).filterMap Act.answer?).length s ∧
    (adoptions his).map (fun x => (x.message?, x.hi?)) = his.mapIdx (fun i hi =>
      (some (if i = 0 then "initialized hi" else "advanced hi"), some hi)) ∧
    ∀ j c, cs[j]? = some c →
      ∃ events, reports c.acts
          = .entered :: (List.replicate (reservedAnswers c.acts) .reservedAnswer ++ events) ∧
        d.story (usables (actsOf (cs.take (j + 1))))
          = d.story (usables (actsOf (cs.take j))) ++ events ∧
        (c.outcome.id? = none → events = []) := by
  intro cs his
  have hrow : ∀ j, Chronicle d (cs.take j) (Memory.fresh.after (cs.take j)) := by
    apply Generator.fresh_keeps (P := Chronicle d) (.fresh d)
    intro past m s h
    exact h.call.1
  refine ⟨?_, Generator.usables_calls n _ s, adoptions_told his, ?_⟩
  · have htold := (hrow cs.length).told
    rwa [List.take_length] at htold
  · intro j c hc
    obtain ⟨s', hcall⟩ := Generator.exists_call n hc
    rw [List.take_add_one, hc, hcall]
    exact (hrow j).call.2

/-- A crash, two reserved values, a failure and three hi values with blocks of two: whatever comes
in between, the hi values are told of in order. -/
theorem reports_tell_adoptions_after_crash :
    let L : Layout := ⟨2, .hilo, by decide⟩
    let feed := Feed.ofSupply (.script (.ofList [.crash "boom", .value reserved, .value 5,
      .value reserved, .failure .unit, .value 7, .value 3] false)) false
    let told (d : Design) :=
      changes (actsOf (Generator.calls Feed.source .forgiving 8 (.fresh d L) feed))
    told (.optimistic 4) = [.initialized 5, .advanced 7, .advanced 3] ∧
      told (.stamped 0) = [.initialized 5, .advanced 7, .advanced 3] ∧
      told .locked = [.advanced 7, .advanced 3] ∧ told .plain = [] := by
  intro L feed told
  have htold : ∀ d, told d = d.story _ := fun d =>
    (reports_tell_adoptions Feed.source .forgiving d L 8 feed).1
  refine ⟨(htold _).trans ?_, (htold _).trans ?_, (htold _).trans ?_, htold _⟩ <;> decide +kernel

end Calls

end HiLo
