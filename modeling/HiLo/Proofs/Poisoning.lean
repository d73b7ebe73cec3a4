/-
HiLo.Proofs.Poisoning — a crash closes the generator that was calling, for good.

Where crashes spoil locks, a generator with a lock refuses a call exactly if the source
has crashed in one of its calls before, and a refused call asks nothing
(`poisoning_exact`). Nobody else takes notice: the other generators on the source, and a
generator without a lock whose own call crashed, go on as if that call had only taken
its answers from the source.

The generators are the members of a fleet, called in any order. `Tended` is the
invariant: every member holds a desk, and the desk is closed if one of the past calls of
a member with a lock broke.
-/
import HiLo.Fleet
import HiLo.Proofs.Desk
import HiLo.Source.Feed

namespace HiLo

variable {σ ε : Type}

/-! ## Broken calls -/

/-- The source crashed while it served a call. -/
def Called.Broke (c : Called σ ε) : Prop := ∃ text, .asked (.crash text) ∈ c.acts

def Act.isCrash : Act ε → Bool
  | .asked (.crash _) => true
  | _ => false

theorem Called.broke_iff_any {c : Called σ ε} : c.Broke ↔ c.acts.any Act.isCrash = true := by
  rw [List.any_eq_true]
  constructor
  · rintro ⟨text, hmem⟩
    exact ⟨_, hmem, rfl⟩
  · rintro ⟨a, hmem, ha⟩
    unfold Act.isCrash at ha
    split at ha
    · exact ⟨_, hmem⟩
    · cases ha

/-- One of the calls of a member broke. -/
def Broken (past : List (Nat × Called σ ε)) (i : Nat) : Prop := ∃ c, (i, c) ∈ past ∧ c.Broke

theorem broken_append_of_ne {past : List (Nat × Called σ ε)} {i j : Nat} {c : Called σ ε}
    (h : j ≠ i) : Broken (past ++ [(i, c)]) j ↔ Broken past j := by
  simp [Broken, h]

theorem broken_append_self {past : List (Nat × Called σ ε)} {i : Nat} {c : Called σ ε} :
    Broken (past ++ [(i, c)]) i ↔ Broken past i ∨ c.Broke := by
  simp only [Broken, List.mem_append, List.mem_singleton, Prod.mk.injEq, true_and]
  constructor
  · rintro ⟨c', hmem | rfl, hbroke⟩
    · exact .inl ⟨c', hmem, hbroke⟩
    · exact .inr hbroke
  · rintro (⟨c', hmem, hbroke⟩ | hbroke)
    · exact ⟨c', .inl hmem, hbroke⟩
    · exact ⟨c, .inr rfl, hbroke⟩

/-- A call broke if a crash is among its answers. -/
theorem Called.broke_iff {c : Called σ ε} :
    c.Broke ↔ ∃ text, .crash text ∈ c.acts.filterMap Act.answer? := by
  have hanswer : ∀ (a : Act ε) (r : Reply ε), a.answer? = some r ↔ a = .asked r := by
    intro a r
    cases a <;> simp [Act.answer?]
  simp [Called.Broke, List.mem_filterMap, hanswer]

/-- A crash is the last answer of a draw, and ends the call. -/
theorem Stock.crash_mem_iff {S : Source σ ε} {size : Nat} {k : Stock} {s : σ} :
    (∃ text, .crash text ∈ (k.serve S size s).answers) ↔
      (k.serve S size s).ending.isCrash = true := by
  rcases serve_cases S size k s with ⟨hi, given, -, -, heq⟩ | ⟨-, heq⟩
  · simp [heq, Ending.isCrash]
  · rw [heq]
    simp only [refill, ended, Draw.answers]
    cases hr : (S.draw s).reply with
    | none => simp [Ending.isCrash]
    | some r => cases r <;> simp [Ending.isCrash]

theorem Desk.crash_mem_iff {S : Source σ ε} {size : Nat} {D : Desk σ} :
    (∃ text, .crash text ∈ (D.serve S size).answers) ↔
      (D.serve S size).ending.isCrash = true := by
  cases hclosed : D.closed with
  | false =>
    rw [serve_of_open hclosed]
    exact Stock.crash_mem_iff
  | true => simp [serve_of_closed hclosed, Ending.isCrash]

/-- A call that got the answers of a call at a desk broke if that one crashed. -/
theorem Called.broke_iff_of_answers {S : Source σ ε} {size : Nat} {D : Desk σ} {c : Called σ ε}
    (h : c.acts.filterMap Act.answer? = (D.serve S size).answers) :
    c.Broke ↔ (D.serve S size).ending.isCrash = true := by
  rw [Called.broke_iff, h, Desk.crash_mem_iff]

/-- Only a failed call has this failure as its outcome. -/
theorem Ending.outcome_eq_failed_iff {L : Layout} {e : Ending ε} {f : Failure ε} :
    e.outcome L = .failed f ↔ e = .failed f := by
  cases e with
  | claimed hi lo =>
    simp only [Ending.outcome]
    split <;> simp
  | failed f' => simp [Ending.outcome]
  | crashed text => simp [Ending.outcome]
  | unsettled => simp [Ending.outcome]

/-! ## Fleets -/

/-- A member as it was made. -/
inductive Member.New : Member → Prop where
  | refused (r : Refusal) : New (.refused r)
  | direct (d : Design) (L : Layout) : New (.direct (.fresh d L))
  | configured {c : Config} {f : Facade} (made : Facade.ofConfig c = .ok f) : New (.facade f)
  | ofLayout (L : Layout) : New (.facade (.ofLayout L))

theorem Member.New.exists_fresh {m : Member} {g : Generator} (h : m.New)
    (hg : m.generator? = some g) : ∃ d L, g = .fresh d L := by
  cases h with
  | refused r => cases hg
  | direct d L => exact ⟨d, L, (Option.some.inj hg).symm⟩
  | @configured c f made =>
    cases hlayout : c.layout with
    | error r => simp [Facade.ofConfig, hlayout] at made
    | ok L =>
      obtain rfl := Option.some.inj hg
      exact ⟨_, L, Facade.engine_ofConfig hlayout made⟩
  | ofLayout L => exact ⟨_, L, (Option.some.inj hg).symm⟩

namespace Fleet

variable {F : Fleet σ} {i j : Nat} {g : Generator} {s : σ}

/-- The other members stay as they are. -/
theorem members_settle_of_ne (h : j ≠ i) : (F.settle i g s).members[j]? = F.members[j]? := by
  simp [settle, Ne.symm h]

theorem generator?_settle_of_ne (h : j ≠ i) : (F.settle i g s).generator? j = F.generator? j := by
  rw [generator?, members_settle_of_ne h]
  rfl

theorem generator?_settle_self {g' : Generator} (h : F.generator? i = some g') :
    (F.settle i g s).generator? i = some g := by
  obtain ⟨m, hm, hg⟩ := Option.bind_eq_some_iff.mp h
  cases m with
  | refused r => cases hg
  | direct _ => simp [generator?, settle, hm, Member.withGenerator, Member.generator?]
  | facade _ => simp [generator?, settle, hm, Member.withGenerator, Member.generator?]

/-- A generator put back in its place. -/
theorem settle_self (h : F.generator? i = some g) : F.settle i g s = { F with source := s } := by
  have hmembers : F.members.modify i (·.withGenerator g) = F.members := by
    apply List.ext_getElem?
    intro j
    rw [List.getElem?_modify]
    by_cases hj : i = j
    · subst hj
      obtain ⟨m, hm, hg⟩ := Option.bind_eq_some_iff.mp h
      rw [hm]
      cases m with
      | refused r => cases hg
      | direct g' => simp_all [Member.generator?, Member.withGenerator]
      | facade f =>
        obtain rfl := Option.some.inj hg
        simp [Member.withGenerator]
    · simp [hj]
  rw [settle, hmembers]

theorem call?_eq_some {S : Source σ ε} {kind : LockKind} {c : Called σ ε} {F' : Fleet σ} :
    F.call? S kind i = some (c, F') ↔
      ∃ g, F.generator? i = some g ∧ c = g.call S kind F.source ∧
        F' = F.settle i c.generator c.source := by
  simp only [call?, Option.map_eq_some_iff, Prod.mk.injEq]
  constructor
  · rintro ⟨g, hg, rfl, rfl⟩
    exact ⟨g, hg, rfl, rfl⟩
  · rintro ⟨g, hg, rfl, rfl⟩
    exact ⟨g, hg, rfl, rfl⟩

theorem calls_cons_of_none {S : Source σ ε} {kind : LockKind} {names : List Nat}
    (h : F.generator? i = none) : F.calls S kind (i :: names) = F.calls S kind names := by
  rw [calls, call?, h]
  rfl

theorem calls_cons {S : Source σ ε} {kind : LockKind} {names : List Nat}
    (h : F.generator? i = some g) :
    let c := g.call S kind F.source
    let rest := (F.settle i c.generator c.source).calls S kind names
    F.calls S kind (i :: names) = ((i, c) :: rest.1, rest.2) := by
  rw [calls, call?, h]
  rfl

end Fleet

/-! ## The invariant -/

/-- A generator holds a desk. Only a generator with a lock has a closed one. -/
structure Keeps (n : Nat) (g : Generator) (D : Desk σ) : Prop where
  holds : Holds g.layout g.design.isStrict n g.memory D
  shared : D.closed = true → g.design.isShared = true

namespace Keeps

variable {n : Nat} {g : Generator} {D : Desk σ}

/-- **A call attends to the desk of its generator**, whatever a crash does to the lock. -/
theorem attends (h : Keeps n g D) (S : Source σ ε) (kind : LockKind) (hn : n + 1 < 2 ^ 63) :
    let p := (g.design.routine g.layout).run S kind g.memory D.source
    let D' := D.after S (g.design.spoils kind) g.layout.size
    Attends g.layout g.design.isStrict (n + 2) p (D.serve S g.layout.size) D' ∧
      Keeps (n + 2) { g with memory := p.memory } D' := by
  have hopen : g.design.isShared = false → D.closed = false := fun hplain => by
    rw [Bool.eq_false_iff]
    exact fun hclosed => by simp [h.shared hclosed] at hplain
  have hattends := g.design.attends S kind h.holds hopen (Nat.lt_of_succ_lt hn) fun _ => hn
  refine ⟨hattends, hattends.holds, fun hclosed => ?_⟩
  simp only [Desk.after, Design.spoils, Bool.or_eq_true, Bool.and_eq_true] at hclosed
  rcases hclosed with hclosed | ⟨-, hshared, -⟩
  · exact h.shared hclosed
  · exact hshared

/-- Where crashes spoil locks, a crash closes the desk of a shared design. -/
theorem call (h : Keeps n g D) (S : Source σ ε) (hn : n + 1 < 2 ^ 63) :
    let p := (g.design.routine g.layout).run S .poisoning g.memory D.source
    let D' := D.after S g.design.isShared g.layout.size
    Attends g.layout g.design.isStrict (n + 2) p (D.serve S g.layout.size) D' ∧
      Keeps (n + 2) { g with memory := p.memory } D' := by
  have hspoils : g.design.spoils .poisoning = g.design.isShared := Bool.and_true _
  exact hspoils ▸ h.attends S .poisoning hn

/-- A call on a closed desk is refused, and asks nothing. -/
theorem refused (h : Keeps n g D) (S : Source σ ε) (s : σ) (hclosed : D.closed = true)
    (hn : n + 1 < 2 ^ 63) :
    let c := g.call S .poisoning s
    c.ending = .failed .poisoned ∧ c.source = s ∧ c.acts.filterMap Act.answer? = [] ∧
      Keeps (n + 2) c.generator D := by
  have hclosed' : ({ D with source := s } : Desk σ).closed = true := hclosed
  have hkeeps : Keeps n g { D with source := s } := ⟨h.holds.congr rfl rfl, h.shared⟩
  obtain ⟨hattends, hafter⟩ := hkeeps.call S hn
  rw [Desk.serve_of_closed hclosed'] at hattends
  rw [Desk.after_of_closed hclosed'] at hafter
  exact ⟨hattends.ending, hattends.source, hattends.answers, hafter.holds.congr rfl rfl,
    hafter.shared⟩

end Keeps

/-- Every member holds a desk, closed if it has a lock and one of its past calls
broke. -/
def Tended (n : Nat) (past : List (Nat × Called σ ε)) (F : Fleet σ) : Prop :=
  ∀ i g, F.generator? i = some g → ∃ D : Desk σ, Keeps n g D ∧ D.source = F.source ∧
    (D.closed = true ↔ g.design.isShared = true ∧ Broken past i)

/-- Every member of a new fleet holds an open desk. -/
theorem Tended.new {F : Fleet σ} (new : ∀ m ∈ F.members, m.New) :
    Tended 0 ([] : List (Nat × Called σ ε)) F := by
  intro i g hg
  obtain ⟨m, hm, hmg⟩ := Option.bind_eq_some_iff.mp hg
  obtain ⟨d, L, rfl⟩ := (new m (List.mem_of_getElem? hm)).exists_fresh hmg
  exact ⟨⟨.none, false, F.source⟩, ⟨.fresh L _ _, nofun⟩, rfl, by simp [Broken]⟩

/-- **One call of one member keeps the fleet tended.** -/
theorem Tended.call {n : Nat} {past : List (Nat × Called σ ε)} {F : Fleet σ} {i : Nat}
    {g : Generator} (h : Tended n past F) (S : Source σ ε) (hn : n + 1 < 2 ^ 63)
    (hg : F.generator? i = some g) :
    let c := g.call S .poisoning F.source
    Tended (n + 2) (past ++ [(i, c)]) (F.settle i c.generator c.source) := by
  intro c j g' hg'
  by_cases hj : j = i
  · subst hj
    rw [Fleet.generator?_settle_self hg] at hg'
    obtain rfl := Option.some.inj hg'
    obtain ⟨D, hkeeps, hsource, hclosed⟩ := h j g hg
    obtain ⟨hattends, hkeeps'⟩ := hkeeps.call S hn
    rw [hsource] at hattends hkeeps'
    refine ⟨_, hkeeps', hattends.source.symm, ?_⟩
    have hbroke : c.Broke ↔ _ := Called.broke_iff_of_answers hattends.answers
    rw [broken_append_self, hbroke, Desk.after, Bool.or_eq_true, hclosed, Bool.and_eq_true]
    exact (or_congr_right and_comm).trans and_or_left.symm
  · rw [Fleet.generator?_settle_of_ne hj] at hg'
    obtain ⟨D, hkeeps, hsource, hclosed⟩ := h j g' hg'
    refine ⟨{ D with source := c.source }, ?_, rfl, ?_⟩
    · exact ⟨(hkeeps.holds.mono (by omega)).congr rfl rfl, hkeeps.shared⟩
    · rw [broken_append_of_ne hj]
      exact hclosed

/-- **Calls in a row keep the fleet tended.** -/
theorem Tended.calls (S : Source σ ε) :
    ∀ (names : List Nat) {n : Nat} {past : List (Nat × Called σ ε)} {F : Fleet σ},
      Tended n past F → n + 2 * names.length < 2 ^ 63 →
      Tended (n + 2 * names.length) (past ++ (F.calls S .poisoning names).1)
        (F.calls S .poisoning names).2
  | [], n, past, F, h, _ => by simpa [Fleet.calls] using h
  | i :: names, n, past, F, h, hn => by
    rw [List.length_cons] at hn ⊢
    cases hg : F.generator? i with
    | none =>
      rw [Fleet.calls_cons_of_none hg]
      intro j g hj
      obtain ⟨D, hkeeps, hrest⟩ := h.calls S names (by omega) j g hj
      exact ⟨D, ⟨hkeeps.holds.mono (by omega), hkeeps.shared⟩, hrest⟩
    | some g =>
      have hrest := (h.call S (by omega) hg).calls S names (by omega)
      rw [List.append_assoc, List.singleton_append] at hrest
      rw [Fleet.calls_cons hg, show n + 2 * (names.length + 1) = n + 2 + 2 * names.length by omega]
      exact hrest

/-! ## As if the call had only advanced the source -/

/-- Two fleets that differ in one member at most. -/
structure Aside (i : Nat) (F G : Fleet σ) : Prop where
  source : F.source = G.source
  members : ∀ j, j ≠ i → F.members[j]? = G.members[j]?

/-- The calls of the others do not depend on a member that refuses its own. -/
theorem Aside.calls {S : Source σ ε} {i : Nat} :
    ∀ {names : List Nat} {n : Nat} {F G : Fleet σ} {g : Generator} {D : Desk σ}, Aside i F G →
      F.generator? i = some g → Keeps n g D → D.closed = true → n + 2 * names.length < 2 ^ 63 →
      ((F.calls S .poisoning names).1.filter fun x => x.1 ≠ i)
        = (G.calls S .poisoning (names.filter (· ≠ i))).1
  | [], n, F, G, g, D, _, _, _, _, _ => rfl
  | j :: names, n, F, G, g, D, h, hg, hkeeps, hclosed, hn => by
    rw [List.length_cons] at hn
    by_cases hj : j = i
    · subst hj
      -- the call is refused: only its own generator moves, and the desk stays closed
      obtain ⟨-, hsource, -, hkeeps'⟩ := hkeeps.refused S F.source hclosed (by omega)
      rw [Fleet.calls_cons hg, List.filter_cons_of_neg (by simp), List.filter_cons_of_neg (by simp)]
      refine calls ⟨hsource.trans h.source, fun j hj => ?_⟩ (Fleet.generator?_settle_self hg)
        hkeeps' hclosed (by omega)
      rw [Fleet.members_settle_of_ne hj, h.members j hj]
    · rw [List.filter_cons_of_pos (by simpa using hj)]
      have hgen : G.generator? j = F.generator? j := by
        rw [Fleet.generator?, Fleet.generator?, h.members j hj]
      cases hFj : F.generator? j with
      | none =>
        rw [Fleet.calls_cons_of_none hFj, Fleet.calls_cons_of_none (hgen.trans hFj)]
        exact calls h hg hkeeps hclosed (by omega)
      | some g' =>
        rw [Fleet.calls_cons hFj, Fleet.calls_cons (hgen.trans hFj),
          List.filter_cons_of_pos (by simpa using hj), ← h.source]
        refine congrArg (_ :: ·) (calls ⟨rfl, fun l hl => ?_⟩ ?_ hkeeps hclosed (by omega))
        · simp only [Fleet.settle, List.getElem?_modify, h.members l hl]
        · rw [Fleet.generator?_settle_of_ne (Ne.symm hj), hg]

/-! ## The theorem -/

/-- **A crash closes the generator that was calling, and no other, for good.** Take a
fleet of new generators where crashes spoil locks, any calls of its members before, and
another call. It is refused exactly if its generator has a lock and one of its calls
before broke, and then it asks nothing. If this call breaks, the other members stay as
they are, and a generator without a lock does so as well; whoever calls afterwards gets
the answers that he would get if the call had only advanced the source. -/
theorem poisoning_exact {S : Source σ ε} {F₀ F F' : Fleet σ} {before after : List Nat}
    {past : List (Nat × Called σ ε)} {i : Nat} {c : Called σ ε}
    (new : ∀ m ∈ F₀.members, m.New) (hroom : before.length + 1 + after.length < 2 ^ 62)
    (hbefore : F₀.calls S .poisoning before = (past, F))
    (hcall : F.call? S .poisoning i = some (c, F')) :
    let shared := c.generator.design.isShared
    (c.outcome = .failed .poisoned ↔ shared = true ∧ Broken past i) ∧
      (c.outcome = .failed .poisoned →
        c.acts.filterMap Act.answer? = [] ∧ c.source = F.source) ∧
      (c.Broke →
        (∀ j, j ≠ i → F'.members[j]? = F.members[j]?) ∧
        (shared = false → F' = { F with source := c.source }) ∧
        (shared = true → ((F'.calls S .poisoning after).1.filter fun x => x.1 ≠ i)
          = (({ F with source := c.source } : Fleet σ).calls S .poisoning
              (after.filter (· ≠ i))).1)) := by
  obtain ⟨g, hg, rfl, rfl⟩ := Fleet.call?_eq_some.mp hcall
  have hnew : Tended 0 ([] : List (Nat × Called σ ε)) F₀ := .new new
  have htended := hnew.calls S before (by omega)
  rw [hbefore, List.nil_append] at htended
  obtain ⟨D, hkeeps, hsource, hclosed⟩ := htended i g hg
  obtain ⟨hattends, hkeeps'⟩ := hkeeps.call S (by omega)
  rw [hsource] at hattends hkeeps'
  have hrefused : (g.call S .poisoning F.source).outcome = .failed .poisoned ↔ D.closed = true := by
    rw [← Desk.serve_ending_iff (S := S), ← hattends.ending]
    exact Ending.outcome_eq_failed_iff
  refine ⟨hrefused.trans hclosed, fun hout => ?_, fun hbroke => ?_⟩
  · obtain ⟨-, hsource, hanswers, -⟩ := hkeeps.refused S F.source (hrefused.mp hout) (by omega)
    exact ⟨hanswers, hsource⟩
  have hcrash := (Called.broke_iff_of_answers hattends.answers).mp hbroke
  refine ⟨fun j hj => Fleet.members_settle_of_ne hj, fun hplain => ?_, fun hshared => ?_⟩
  · -- without a lock, a call that ends without a pair has written nothing
    have hmemory : (g.call S .poisoning F.source).generator = g := by
      obtain ⟨d, L, m⟩ := g
      obtain rfl : d = .plain := by cases d <;> first | rfl | cases hplain
      rcases Plain.routine_memory S .poisoning L m F.source with heq | ⟨hi, lo, hclaimed, -⟩
      · exact congrArg (Generator.mk .plain L) heq
      · rw [← hattends.ending] at hcrash
        exact absurd (hclaimed ▸ hcrash) nofun
    rw [hmemory]
    exact Fleet.settle_self hg
  · have hclosed' : (D.after S g.design.isShared g.layout.size).closed = true := by
      simp only [Desk.after, hcrash, Bool.true_and, Bool.or_eq_true]
      exact .inr hshared
    exact Aside.calls ⟨rfl, fun j hj => Fleet.members_settle_of_ne hj⟩
      (Fleet.generator?_settle_self hg) hkeeps' hclosed' (by omega)

/-- A stamped generator breaks at a rollover; a generator without a lock and a facade
share its source. -/
theorem poisoning_exact_after_rollover :
    let L : Layout := ⟨1, .hilo, by decide⟩
    let F₀ : Fleet Feed := ⟨[.direct (.fresh (.stamped 2) L), .direct (.fresh .plain L),
        .facade (.ofLayout L)],
      .ofSupply (.script (.ofList [.value 3, .crash "down", .value 5, .value 7] false)) false⟩
    let F := (F₀.calls Feed.source .poisoning [0]).2
    ∃ c F', F.call? Feed.source .poisoning 0 = some (c, F') ∧
      (F'.calls Feed.source .poisoning [0, 1, 0, 2]).1.map (fun x => (x.1, x.2.outcome.id?))
        = [(0, none), (1, some 5), (0, none), (2, some 7)] ∧
      (F'.calls Feed.source .poisoning [0, 1, 0, 2]).1.filter (fun x => x.1 ≠ 0)
        = (({ F with source := c.source } : Fleet Feed).calls Feed.source .poisoning [1, 2]).1 := by
  intro L F₀ F
  have new : ∀ m ∈ F₀.members, m.New := by
    simp only [F₀, List.forall_mem_cons]
    exact ⟨.direct _ _, .direct _ _, .ofLayout _, nofun⟩
  have hbefore : F₀.calls Feed.source .poisoning [0] = (_, F) := rfl
  refine ⟨_, _, rfl, by decide +kernel,
    ((poisoning_exact new (by decide) hbefore rfl).2.2 ?_).2.2 rfl⟩
  have hcrash : ((((F₀.calls Feed.source .poisoning [0]).2.call? Feed.source .poisoning 0).map
      (·.1.acts)).getD []).any Act.isCrash = true := by
    decide +kernel
  exact Called.broke_iff_any.mpr hcrash

end HiLo
