/-
HiLo.Proofs.Runs — calls in a row on a new generator.

A new generator is one of the four designs, taken directly or behind a facade.
Nobody who calls it can tell which: `fresh_runs_agree` says that two of them,
started on equal sources, answer alike call by call, ask the source for the
same answers in every call and leave it in the same state. Where a crash
spoils locks this holds up to the first call in which the source crashes; a
design without a lock goes on from there, the others refuse.

Both are compared with a run on a stock (`calls_shown`), so no two designs are
compared with each other.
-/
import HiLo.Facade
import HiLo.Proofs.Undisturbed
import HiLo.Source.Feed

namespace HiLo

variable {σ ε : Type}

/-! ## What a call shows -/

/-- What a call shows to its caller and to its source: what the caller got, the
source afterwards, and what the source answered, in order. -/
structure Shown (σ ε : Type) where
  outcome : Outcome ε
  source : σ
  answers : List (Reply ε)

def Called.shown (c : Called σ ε) : Shown σ ε :=
  ⟨c.outcome, c.source, c.acts.filterMap Act.answer?⟩

def Served.shown (L : Layout) (q : Served σ ε) : Shown σ ε :=
  ⟨q.ending.outcome L, q.source, q.answers⟩

/-- Whether the source crashed in a call. -/
def Shown.crashed (v : Shown σ ε) : Bool :=
  match v.outcome with
  | .crashed (.source _) => true
  | _ => false

/-- The calls up to and including the first one in which the source crashed. -/
def untilCrash : List (Shown σ ε) → List (Shown σ ε)
  | [] => []
  | v :: vs => if v.crashed then [v] else v :: untilCrash vs

/-- The calls in which a lock, if there is one, is still sound: where a crash
spoils it, those up to the first crash. -/
def LockKind.span (kind : LockKind) (vs : List (Shown σ ε)) : List (Shown σ ε) :=
  match kind with
  | .poisoning => untilCrash vs
  | .forgiving => vs

theorem crashed_outcome_iff (L : Layout) (e : Ending ε) (s : σ) (rs : List (Reply ε)) :
    (Shown.mk (e.outcome L) s rs).crashed = true ↔ ∃ text, e = .crashed text := by
  cases e with
  | claimed hi lo =>
    simp only [Ending.outcome]
    split <;> simp [Shown.crashed]
  | failed f => simp [Ending.outcome, Shown.crashed]
  | crashed text => simp [Ending.outcome, Shown.crashed]
  | unsettled => simp [Ending.outcome, Shown.crashed]

/-! ## Runs on a stock -/

def Stock.serves (S : Source σ ε) (size : Nat) : Nat → Stock → σ → List (Served σ ε)
  | 0, _, _ => []
  | n + 1, k, s =>
    let q := k.serve S size s
    q :: serves S size n q.stock q.source

namespace Stock

variable {S : Source σ ε} {size : Nat} {s : σ}

@[simp] theorem length_serves (n : Nat) :
    ∀ (k : Stock) (s : σ), (k.serves S size n s).length = n := by
  induction n with
  | zero => intros; rfl
  | succ n ih =>
    intro k s
    simp [serves, ih]

/-- A call hands out the next identifier of its block, or it draws. -/
theorem serve_cases (S : Source σ ε) (size : Nat) (k : Stock) (s : σ) :
    (∃ hi given, k = .block hi given ∧ given < size ∧
      k.serve S size s = ⟨.claimed hi (.ofNat given), .block hi (given + 1), s, []⟩) ∨
    ((∀ hi given, k = .block hi given → size ≤ given) ∧
      k.serve S size s = k.refill (S.draw s)) := by
  cases k with
  | none => exact .inr ⟨nofun, rfl⟩
  | block hi given =>
    by_cases h : given < size
    · exact .inl ⟨hi, given, rfl, h, if_pos h⟩
    · refine .inr ⟨?_, if_neg h⟩
      rintro _ _ ⟨⟩
      exact Nat.le_of_not_lt h

/-- A call leaves the source in a state to come. -/
theorem exists_serve_source (S : Source σ ε) (size : Nat) (k : Stock) (s : σ) :
    ∃ i, (k.serve S size s).source = S.after i s := by
  rcases serve_cases S size k s with ⟨hi, given, -, -, h⟩ | ⟨-, h⟩
  · exact ⟨0, by rw [h]; rfl⟩
  · rw [h]
    exact S.exists_draw_state s

/-- Where draws settle, a call ends. -/
theorem serve_ne_unsettled (k : Stock) (hs : S.SettlesFrom s) :
    (k.serve S size s).ending ≠ .unsettled := by
  rcases serve_cases S size k s with ⟨hi, given, -, -, h⟩ | ⟨-, h⟩
  · simp [h]
  · obtain ⟨r, hr⟩ := hs.draw
    simp only [h, refill, ended, hr]
    cases r <;> simp

/-- Where no answer is a crash, no call crashes. -/
theorem serve_ne_crashed (k : Stock) (hs : S.CalmFrom s) (text : String) :
    (k.serve S size s).ending ≠ .crashed text := by
  rcases serve_cases S size k s with ⟨hi, given, -, -, h⟩ | ⟨-, h⟩
  · simp [h]
  · simp only [h, refill, ended]
    cases hr : (S.draw s).reply with
    | none => simp
    | some r =>
      have hreply := (Source.draw_some hr).2.1
      cases r with
      | crash text => exact absurd hreply (hs _ text)
      | value hi => simp
      | failure cause => simp

/-- What holds of every call from a state of the source on holds of a run. -/
theorem forall_mem_serves {P : Served σ ε → Prop} {Q : σ → Prop}
    (step : ∀ (k : Stock) (s : σ), Q s → P (k.serve S size s))
    (after : ∀ s i, Q s → Q (S.after i s)) (n : Nat) :
    ∀ (k : Stock) (s : σ), Q s → ∀ q ∈ k.serves S size n s, P q := by
  induction n with
  | zero => intro k s _ q hq; simp [serves] at hq
  | succ n ih =>
    intro k s hs q hq
    simp only [serves, List.mem_cons] at hq
    rcases hq with rfl | hq
    · exact step k s hs
    · obtain ⟨i, hi⟩ := exists_serve_source S size k s
      exact ih _ _ (hi ▸ after s i hs) q hq

end Stock

/-- Calls in a row show what calls on the stock show, while the lock is
sound. -/
theorem calls_shown (S : Source σ ε) (kind : LockKind) {L : Layout} (d : Design) (n : Nat) :
    ∀ {i : Nat} {m : Memory} {k : Stock} (s : σ), Fits L (2 * i) m k →
      m.poisoned = false → i + n ≤ 2 ^ 62 →
      kind.span ((Generator.calls S kind n ⟨d, L, m⟩ s).map Called.shown)
        = kind.span ((k.serves S L.size n s).map (Served.shown L)) := by
  induction n with
  | zero => intros; rfl
  | succ n ih =>
    intro i m k s hfits hm hn
    let p := (d.routine L).run S kind m s
    have hp : Follows L kind (2 * i + 2) p (k.serve S L.size s) :=
      d.routine_follows hfits (by omega) hm
    have hshown : (Generator.call S kind ⟨d, L, m⟩ s).shown = (k.serve S L.size s).shown L := by
      have h1 := hp.ending
      have h2 := hp.source
      have h3 := hp.answers
      simp only [Called.shown, Called.outcome, Generator.call, Served.shown, ← h1, ← h2, ← h3, p]
    -- the rest of the run, from where this call left the cells and the source
    have hrest : p.memory.poisoned = false →
        kind.span ((Generator.calls S kind n ⟨d, L, p.memory⟩ p.source).map Called.shown)
          = kind.span (((k.serve S L.size s).stock.serves S L.size n
              (k.serve S L.size s).source).map (Served.shown L)) := fun hpm => by
      rw [hp.source]
      exact ih (i := i + 1) _ hp.fits hpm (by omega)
    simp only [Generator.calls, Stock.serves, List.map_cons, hshown]
    cases kind with
    | forgiving =>
      have hpm : p.memory.poisoned = false := by
        cases h : p.memory.poisoned with
        | false => rfl
        | true => cases (hp.sound h).1
      exact congrArg (_ :: ·) (hrest hpm)
    | poisoning =>
      simp only [LockKind.span, untilCrash]
      split
      · rfl
      · next hcrash =>
        have hpm : p.memory.poisoned = false := by
          cases h : p.memory.poisoned with
          | false => rfl
          | true => exact absurd ((crashed_outcome_iff L _ _ _).mpr (hp.sound h).2) hcrash
        exact congrArg (_ :: ·) (hrest hpm)

/-! ## Runs of new generators -/

/-- The runs of `n` calls that begin with a new generator of a layout: of any
design, of a facade that was made from a configuration with this layout, or of
the facade of the layout alone. -/
inductive FreshRun (S : Source σ ε) (kind : LockKind) (L : Layout) (n : Nat) (s : σ) :
    List (Called σ ε) → Prop where
  | direct (d : Design) : FreshRun S kind L n s (Generator.calls S kind n (.fresh d L) s)
  | configured {c : Config} {f : Facade} (layout : c.layout = .ok L)
      (made : Facade.ofConfig c = .ok f) : FreshRun S kind L n s (f.calls S kind n s)
  | ofLayout : FreshRun S kind L n s ((Facade.ofLayout L).calls S kind n s)

/-- A facade hands every call on to its generator. -/
theorem Facade.calls_eq (S : Source σ ε) (kind : LockKind) (n : Nat) :
    ∀ (f : Facade) (s : σ), f.calls S kind n s = f.engine.calls S kind n s := by
  induction n with
  | zero => intros; rfl
  | succ n ih =>
    intro f s
    simp only [Facade.calls, Generator.calls, Facade.call, ih]

/-- The facade of a configuration works with a new generator. -/
theorem Facade.engine_ofConfig {c : Config} {f : Facade} {L : Layout}
    (layout : c.layout = .ok L) (made : Facade.ofConfig c = .ok f) :
    f.engine = .fresh (.ofStrategy c.strategy c.attempts) L := by
  simp only [Facade.ofConfig, layout, Except.ok.injEq] at made
  rw [← made]

/-- A run of a new generator is a run of one of the designs. -/
theorem FreshRun.exists_design {S : Source σ ε} {kind : LockKind} {L : Layout} {n : Nat}
    {s : σ} {cs : List (Called σ ε)} (h : FreshRun S kind L n s cs) :
    ∃ d : Design, cs = Generator.calls S kind n (.fresh d L) s := by
  cases h with
  | direct d => exact ⟨d, rfl⟩
  | configured layout made =>
    exact ⟨_, by rw [Facade.calls_eq, Facade.engine_ofConfig layout made]⟩
  | ofLayout => exact ⟨_, Facade.calls_eq S kind n _ s⟩

/-- What a run of a new generator shows is what a run on the empty stock shows. -/
theorem FreshRun.shown {S : Source σ ε} {kind : LockKind} {L : Layout} {n : Nat}
    {s : σ} {cs : List (Called σ ε)} (h : FreshRun S kind L n s cs) (hn : n ≤ 2 ^ 62) :
    kind.span (cs.map Called.shown)
      = kind.span ((Stock.none.serves S L.size n s).map (Served.shown L)) := by
  obtain ⟨d, rfl⟩ := h.exists_design
  exact calls_shown S kind d n (i := 0) s (Fits.fresh L) rfl (by omega)

theorem mem_of_mem_untilCrash {v : Shown σ ε} :
    ∀ {vs : List (Shown σ ε)}, v ∈ untilCrash vs → v ∈ vs
  | [], h => h
  | w :: vs, h => by
    unfold untilCrash at h
    split at h
    · exact List.mem_cons.mpr (.inl (List.mem_singleton.mp h))
    · rcases List.mem_cons.mp h with rfl | h
      · exact List.mem_cons_self
      · exact List.mem_cons_of_mem _ (mem_of_mem_untilCrash h)

theorem mem_of_mem_span {kind : LockKind} {v : Shown σ ε} {vs : List (Shown σ ε)}
    (h : v ∈ kind.span vs) : v ∈ vs := by
  cases kind with
  | poisoning => exact mem_of_mem_untilCrash h
  | forgiving => exact h

/-- A run up to its first crash that shows no crash is the whole run. -/
theorem eq_of_untilCrash_eq :
    ∀ {vs ws : List (Shown σ ε)}, untilCrash vs = ws → (∀ w ∈ ws, w.crashed = false) → vs = ws
  | [], _, h, _ => h
  | v :: vs, ws, h, hws => by
    unfold untilCrash at h
    subst h
    split
    · next hv => simp [hv] at hws
    · next hv =>
      simp only [if_neg hv, List.mem_cons, forall_eq_or_imp] at hws
      exact congrArg (v :: ·) (eq_of_untilCrash_eq rfl hws.2)

theorem untilCrash_eq_self :
    ∀ {vs : List (Shown σ ε)}, (∀ v ∈ vs, v.crashed = false) → untilCrash vs = vs
  | [], _ => rfl
  | v :: vs, h => by
    rw [List.forall_mem_cons] at h
    rw [untilCrash, if_neg (by simp [h.1]), untilCrash_eq_self h.2]

/-- Without crashes where they spoil locks, the whole run of a new generator
shows what a run on the empty stock shows. -/
theorem FreshRun.shown_eq {S : Source σ ε} {kind : LockKind} {L : Layout} {n : Nat}
    {s : σ} {cs : List (Called σ ε)} (h : FreshRun S kind L n s cs) (hn : n ≤ 2 ^ 62)
    (hcalm : kind = .poisoning → S.CalmFrom s) :
    cs.map Called.shown = (Stock.none.serves S L.size n s).map (Served.shown L) := by
  have hspan := h.shown hn
  cases kind with
  | forgiving => exact hspan
  | poisoning =>
    have hcrash : ∀ v ∈ (Stock.none.serves S L.size n s).map (Served.shown L),
        v.crashed = false := by
      intro v hv
      obtain ⟨q, hq, rfl⟩ := List.mem_map.mp hv
      have hne : ∀ text, q.ending ≠ .crashed text :=
        Stock.forall_mem_serves (P := fun q => ∀ text, q.ending ≠ .crashed text)
          (Q := S.CalmFrom) (fun k s hs text => k.serve_ne_crashed hs text)
          (fun _ i hs => hs.after i) n _ s (hcalm rfl) q hq
      rw [Bool.eq_false_iff, ne_eq, Served.shown, crashed_outcome_iff]
      rintro ⟨text, htext⟩
      exact hne text htext
    exact eq_of_untilCrash_eq (hspan.trans (untilCrash_eq_self hcrash)) hcrash

/-- Where draws settle, the calls of a run on a stock have outcomes. -/
theorem serves_outcome_ne_unsettled {S : Source σ ε} {L : Layout} {n : Nat} {k : Stock} {s : σ}
    {v : Shown σ ε} (hs : S.SettlesFrom s)
    (hv : v ∈ (k.serves S L.size n s).map (Served.shown L)) : v.outcome ≠ .unsettled := by
  obtain ⟨q, hq, rfl⟩ := List.mem_map.mp hv
  have hsettled : q.ending ≠ .unsettled :=
    Stock.forall_mem_serves (P := fun q => q.ending ≠ .unsettled) (Q := S.SettlesFrom)
      (fun k s hs => k.serve_ne_unsettled hs) (fun _ i hs => hs.after i) n _ s hs q hq
  intro hout
  apply hsettled
  cases he : q.ending with
  | claimed hi lo =>
    simp only [Served.shown, he, Ending.outcome] at hout
    split at hout <;> cases hout
  | failed f => simp [Served.shown, he, Ending.outcome] at hout
  | crashed text => simp [Served.shown, he, Ending.outcome] at hout
  | unsettled => rfl

/-- **New generators agree.** Two runs of fewer than `2 ^ 62` calls, each on a new
generator of the layout and on an equal source, show the same while the lock is
sound: the same outcomes, answers and sources, call by call. Where draws settle,
every call has an outcome. -/
theorem fresh_runs_agree {S : Source σ ε} {kind : LockKind} {L : Layout} {n : Nat} {s : σ}
    {cs cs' : List (Called σ ε)} (hn : n < 2 ^ 62) (h : FreshRun S kind L n s cs)
    (h' : FreshRun S kind L n s cs') :
    kind.span (cs.map Called.shown) = kind.span (cs'.map Called.shown) ∧
      (S.SettlesFrom s → ∀ v ∈ kind.span (cs.map Called.shown), v.outcome ≠ .unsettled) := by
  refine ⟨(h.shown hn.le).trans (h'.shown hn.le).symm, fun hs v hv => ?_⟩
  rw [h.shown hn.le] at hv
  exact serves_outcome_ne_unsettled hs (mem_of_mem_span hv)

/-- A stamped generator and a facade, on a feed that answers the reserved value,
fails and crashes. -/
theorem fresh_runs_agree_on_script :
    let L : Layout := ⟨2, .hilo, by decide⟩
    let feed := Feed.ofSupply (.script (.ofList
      [.value reserved, .value 3, .failure .unit, .crash "down", .value 5] false)) false
    let stamped := Generator.calls Feed.source .poisoning 6 (.fresh (.stamped 2) L) feed
    let facade := (Facade.ofLayout L).calls Feed.source .poisoning 6 feed
    stamped.map (·.outcome.id?) = [some 6, some 7, none, none, none, none] ∧
      LockKind.span .poisoning (stamped.map Called.shown)
        = LockKind.span .poisoning (facade.map Called.shown) := by
  refine ⟨by decide +kernel, ?_⟩
  exact (fresh_runs_agree (n := 6) (by decide) (.direct (.stamped 2)) .ofLayout).1

end HiLo
