/-
HiLo.Proofs.Rows — calls in a row, with the actions and the cells between them.

A row of calls is told by what was done so far. `usables` are the usable hi values that
the source answered in some actions, in order, and `Memory.after` are the cells that
some calls leave behind. Every call of a row is made from the cells that the calls
before it have left (`Generator.exists_call`), and what each call keeps holds between
any two of them (`Generator.calls_keep`). There is no bound on the number of calls.
-/
import HiLo.Generator
import HiLo.Proofs.Draws

namespace HiLo

variable {σ ε : Type}

/-! ## Actions -/

def usables (acts : List (Act ε)) : List Int64 :=
  (acts.filterMap Act.answer?).filterMap Reply.usable?

theorem usables_append (acts acts' : List (Act ε)) :
    usables (acts ++ acts') = usables acts ++ usables acts' := by
  simp [usables]

/-- No usable value is the reserved one. -/
theorem ne_reserved_of_mem_usables {acts : List (Act ε)} {hi : Int64} (h : hi ∈ usables acts) :
    hi ≠ reserved := by
  obtain ⟨r, -, hr⟩ := List.mem_filterMap.mp h
  exact Reply.ne_reserved_of_usable? hr

/-- A draw does nothing but ask. -/
theorem Draw.exists_of_mem_acts {d : Draw σ ε} {a : Act ε} (h : a ∈ d.acts) :
    ∃ r, a = .asked r := by
  rw [Draw.acts, List.mem_append] at h
  rcases h with hskipped | hlast
  · exact ⟨_, List.eq_of_mem_replicate hskipped⟩
  · cases hr : d.reply with
    | none => simp [hr] at hlast
    | some r => exact ⟨r, by simpa [hr] using hlast⟩

def actsOf (cs : List (Called σ ε)) : List (Act ε) := cs.flatMap (·.acts)

theorem actsOf_append (cs cs' : List (Called σ ε)) :
    actsOf (cs ++ cs') = actsOf cs ++ actsOf cs' := by
  simp [actsOf]

theorem actsOf_singleton (c : Called σ ε) : actsOf [c] = c.acts := by
  simp [actsOf]

/-! ## Cells -/

/-- The cells that some calls in a row leave, if they began with given ones. -/
def Memory.after (m : Memory) (cs : List (Called σ ε)) : Memory :=
  match cs.getLast? with
  | some c => c.generator.memory
  | none => m

@[simp] theorem Memory.after_cons (m : Memory) (c : Called σ ε) (cs : List (Called σ ε)) :
    m.after (c :: cs) = c.generator.memory.after cs := by
  unfold after
  rw [List.getLast?_cons]
  cases cs.getLast? <;> rfl

/-! ## Rows -/

section

variable {S : Source σ ε} {kind : LockKind} {d : Design} {L : Layout}

/-- Every call of a row is made from the cells that the calls before it have left. -/
theorem Generator.exists_call (n : Nat) :
    ∀ {m : Memory} {s : σ} {j : Nat} {c : Called σ ε},
      let cs := calls S kind n ⟨d, L, m⟩ s
      cs[j]? = some c → ∃ s', c = call S kind ⟨d, L, m.after (cs.take j)⟩ s' := by
  induction n with
  | zero =>
    intro m s j c cs hc
    cases hc
  | succ n ih =>
    intro m s j c cs hc
    cases j with
    | zero =>
      obtain rfl := Option.some.inj hc
      exact ⟨s, rfl⟩
    | succ j =>
      simp only [cs, calls, List.getElem?_cons_succ, List.take_succ_cons, Memory.after_cons] at hc ⊢
      exact ih hc

/-- **What every call keeps holds between the calls of a row.** It may speak of the calls so far
and of the cells. -/
theorem Generator.calls_keep {P : List (Called σ ε) → Memory → Prop}
    (keeps : ∀ past m s, P past m →
      let c := call S kind ⟨d, L, m⟩ s
      P (past ++ [c]) c.generator.memory) (n : Nat) :
    ∀ {past : List (Called σ ε)} {m : Memory} (s : σ), P past m →
      let cs := calls S kind n ⟨d, L, m⟩ s
      ∀ j, P (past ++ cs.take j) (m.after (cs.take j)) := by
  induction n with
  | zero =>
    intro past m s h cs j
    simpa [cs, calls, Memory.after] using h
  | succ n ih =>
    intro past m s h cs j
    cases j with
    | zero => simpa [Memory.after] using h
    | succ j =>
      have hrest := ih (call S kind ⟨d, L, m⟩ s).source (keeps past m s h) j
      rw [List.append_assoc] at hrest
      simp only [cs, calls, List.take_succ_cons, Memory.after_cons]
      exact hrest

/-- What holds of a new generator and is kept by every call holds between its calls. -/
theorem Generator.fresh_keeps {P : List (Called σ ε) → Memory → Prop} (start : P [] .fresh)
    (keeps : ∀ past m s, P past m →
      let c := call S kind ⟨d, L, m⟩ s
      P (past ++ [c]) c.generator.memory) (n : Nat) (s : σ) :
    let cs := calls S kind n (.fresh d L) s
    ∀ j, P (cs.take j) (Memory.fresh.after (cs.take j)) := by
  intro cs j
  exact calls_keep keeps n s start j

/-- The source gives calls in a row its answers one after another. -/
theorem Generator.gives_calls (S : Source σ ε) (kind : LockKind) (n : Nat) :
    ∀ (g : Generator) (s : σ),
      ∃ s', S.Gives s ((actsOf (calls S kind n g s)).filterMap Act.answer?) s' := by
  induction n with
  | zero =>
    intro g s
    exact ⟨s, .nothing⟩
  | succ n ih =>
    intro g s
    have hfirst := (g.design.routine g.layout).gives S kind g.memory s
    obtain ⟨s', hrest⟩ := ih (g.call S kind s).generator (g.call S kind s).source
    refine ⟨s', ?_⟩
    simp only [calls, actsOf, List.flatMap_cons, List.filterMap_append]
    exact hfirst.append hrest

/-- So the usable hi values of some calls are those among the first answers of the source. -/
theorem Generator.usables_calls (n : Nat) (g : Generator) (s : σ) :
    let cs := calls S kind n g s
    usables (actsOf cs) = S.usables ((actsOf cs).filterMap Act.answer?).length s := by
  obtain ⟨s', h⟩ := gives_calls S kind n g s
  exact h.usables_eq

end

end HiLo
