/-
HiLo.Proofs.Building — the ways to a facade.

A facade is made from a configuration, by a builder, or from a layout alone. A configuration
and a builder that take the same settings, in any number and order, end up with the same
ones: of each kind the last one counts, and the default where there was none
(`Config.foldl_set`, `Builder.config_foldl`). What is made of them is refused for the capacity
alone, and otherwise works just as a generator of the chosen design does that was made
directly (`facades_agree`).

A facade keeps its settings twice, in its configuration and in its generator; `RunsLike`
compares what the generator does, in rows of calls and in calls that overlap.
-/
import HiLo.Machine
import HiLo.Proofs.Runs

namespace HiLo

/-! ## Settings, one after another -/

namespace Setting

def scheme? : Setting → Option Scheme
  | .scheme m => some m
  | .strategy _ | .attempts _ => none

def strategy? : Setting → Option Strategy
  | .strategy s => some s
  | .scheme _ | .attempts _ => none

def attempts? : Setting → Option UInt32
  | .attempts n => some n
  | .scheme _ | .strategy _ => none

end Setting

/-- A configuration with the last value that some settings set of each kind, and its own where
they set none. -/
def Config.overridden (c : Config) (steps : List Setting) : Config where
  capacity := c.capacity
  scheme := (steps.reverse.findSome? Setting.scheme?).getD c.scheme
  strategy := (steps.reverse.findSome? Setting.strategy?).getD c.strategy
  attempts := (steps.reverse.findSome? Setting.attempts?).getD c.attempts

/-- A setting before others counts where none of them is of its kind. -/
theorem Config.overridden_cons (c : Config) (x : Setting) (steps : List Setting) :
    c.overridden (x :: steps) = (c.set x).overridden steps := by
  cases x with
  | scheme m =>
    simp [overridden, set, withScheme, Setting.scheme?, Setting.strategy?, Setting.attempts?]
  | strategy s =>
    simp [overridden, set, withStrategy, Setting.scheme?, Setting.strategy?, Setting.attempts?]
  | attempts n =>
    simp [overridden, set, withAttempts, Setting.scheme?, Setting.strategy?, Setting.attempts?]

/-- Of each kind the last setting counts. -/
theorem Config.foldl_set (steps : List Setting) :
    ∀ c : Config, steps.foldl Config.set c = c.overridden steps := by
  induction steps with
  | nil => intro c; rfl
  | cons x steps ih =>
    intro c
    rw [List.foldl_cons, ih, overridden_cons]

theorem Builder.config_set (b : Builder) (x : Setting) : (b.set x).config = b.config.set x := by
  cases x <;> rfl

/-- A builder collects what a configuration does. -/
theorem Builder.config_foldl (steps : List Setting) :
    ∀ b : Builder, (steps.foldl Builder.set b).config = b.config.overridden steps := by
  induction steps with
  | nil => intro b; rfl
  | cons x steps ih =>
    intro b
    rw [List.foldl_cons, ih, config_set, Config.overridden_cons]

/-! ## What is made of settings -/

theorem Layout.make_of_pos {capacity : Int64} (positive : 0 < capacity) (m : Scheme) :
    Layout.make capacity m = .ok ⟨capacity, m, positive⟩ := dif_pos positive

theorem Layout.make_of_nonpos {capacity : Int64} (h : capacity ≤ 0) (m : Scheme) :
    Layout.make capacity m = .error (.capacity capacity) := dif_neg (Int64.not_lt.mpr h)

/-- A layout is made again from its own settings. -/
theorem Config.layout_ofLayout (L : Layout) : (Config.ofLayout L).layout = .ok L :=
  Layout.make_of_pos L.positive L.scheme

/-- A facade answers as a generator does, whatever the source: in a row of calls, and when
calls of any number of threads overlap. -/
structure Facade.RunsLike (f : Facade) (g : Generator) : Prop where
  row : ∀ {σ ε : Type} (S : Source σ ε) (kind : LockKind) (n : Nat) (s : σ),
    f.calls S kind n s = g.calls S kind n s
  overlapping : ∀ {σ ε : Type} (S : Source σ ε) (kind : LockKind) (threads : Nat) (s : σ)
    (moves : List Nat), (f.engine.arena S kind).run (.idle threads f.engine.memory s) moves
      = (g.arena S kind).run (.idle threads g.memory s) moves

namespace Facade

variable {f : Facade} {c : Config} {L : Layout}

theorem RunsLike.of_engine {g : Generator} (h : f.engine = g) : f.RunsLike g where
  row S kind n s := by rw [calls_eq, h]
  overlapping S kind threads s moves := by rw [h]

/-- A configuration with a layout makes a facade of that layout. -/
theorem ofConfig_of_layout (h : c.layout = .ok L) :
    ofConfig c = .ok ⟨c, .fresh (.ofStrategy c.strategy c.attempts) L⟩ := by
  rw [ofConfig, h]

theorem ofConfig_of_refused {r : Refusal} (h : c.layout = .error r) : ofConfig c = .error r := by
  rw [ofConfig, h]

end Facade

/-! ## The whole of it -/

/-- **The ways to a facade agree.** For any capacity and any settings in a row, a builder and a
configuration that take them are refused for the capacity exactly if it is not positive. Otherwise
they make one facade: its configuration has the last setting of each kind, or the default, its
layout is that of the configuration, and it runs like a new generator of the design that the last
strategy names, with that layout and number of attempts. The facade of a layout alone is the one of
the configuration of that layout, whose layout it is. -/
theorem facades_agree (capacity : Int64) (steps : List Setting) (L : Layout) :
    let built := (steps.foldl Builder.set (.ofCapacity capacity)).build
    let made := Facade.ofConfig (steps.foldl Config.set (.ofCapacity capacity))
    let last := Config.overridden ⟨capacity, .hilo, .optimistic, 4⟩ steps
    (capacity ≤ 0 → built = .error (.capacity capacity) ∧ made = .error (.capacity capacity)) ∧
    (0 < capacity → ∃ f, built = .ok f ∧ made = .ok f ∧ f.config = last ∧
      f.config.layout = .ok f.layout ∧
      (last.strategy = .lock → f.RunsLike (.fresh .locked f.layout)) ∧
      (last.strategy = .optimistic → f.RunsLike (.fresh (.optimistic last.attempts) f.layout)) ∧
      (last.strategy = .stamped → f.RunsLike (.fresh (.stamped last.attempts) f.layout))) ∧
    Facade.ofConfig (.ofLayout L) = .ok (.ofLayout L) ∧
    (Facade.ofLayout L).RunsLike (.fresh (.optimistic 4) L) ∧
    (Config.ofLayout L).layout = .ok L := by
  intro built made last
  have hmade : made = Facade.ofConfig last :=
    congrArg Facade.ofConfig (Config.foldl_set steps (.ofCapacity capacity))
  have hbuilt : built = Facade.ofConfig last :=
    congrArg Facade.ofConfig (Builder.config_foldl steps (.ofCapacity capacity))
  refine ⟨fun nonpos => ?_, fun positive => ?_, ?_, .of_engine rfl, Config.layout_ofLayout L⟩
  · have hlayout : last.layout = .error (.capacity capacity) :=
      Layout.make_of_nonpos nonpos last.scheme
    have hrefused := Facade.ofConfig_of_refused hlayout
    exact ⟨hbuilt.trans hrefused, hmade.trans hrefused⟩
  · have hlayout : last.layout = .ok ⟨capacity, last.scheme, positive⟩ :=
      Layout.make_of_pos positive last.scheme
    have hfacade := Facade.ofConfig_of_layout hlayout
    refine ⟨_, hbuilt.trans hfacade, hmade.trans hfacade, rfl, hlayout, fun h => ?_, fun h => ?_,
      fun h => ?_⟩
    · exact .of_engine (by rw [h]; rfl)
    · exact .of_engine (by rw [h]; rfl)
    · exact .of_engine (by rw [h]; rfl)
  · exact Facade.ofConfig_of_layout (Config.layout_ofLayout L)

/-- Settings of one kind replace each other, and the number of attempts outlasts a change of the
strategy. -/
theorem facades_agree_on_last_settings :
    let steps : List Setting := [.strategy .lock, .attempts 2, .scheme .pooled, .strategy .stamped]
    let feed := Feed.ofSupply (.arithmetic 10 5) false
    (∃ f, (steps.foldl Builder.set (.ofCapacity 2)).build = .ok f ∧
      f.config = ⟨2, .pooled, .stamped, 2⟩ ∧ f.RunsLike (.fresh (.stamped 2) f.layout) ∧
      (f.calls Feed.source .poisoning 3 feed).map (·.outcome.id?) = [some 10, some 11, some 15]) ∧
    (steps.foldl Builder.set (.ofCapacity 0)).build = .error (.capacity 0) := by
  intro steps feed
  let L : Layout := ⟨2, .pooled, by decide⟩
  obtain ⟨f, hbuilt, -, hconfig, hlayout, -, -, hstamped⟩ :=
    (facades_agree 2 steps L).2.1 (by decide)
  have hconfig : f.config = ⟨2, .pooled, .stamped, 2⟩ := hconfig
  have hL : f.layout = L := by
    rw [hconfig] at hlayout
    exact (Except.ok.inj hlayout).symm
  have hruns : f.RunsLike (.fresh (.stamped 2) f.layout) := hstamped rfl
  refine ⟨⟨f, hbuilt, hconfig, hruns, ?_⟩, ((facades_agree 0 steps L).1 (by decide)).1⟩
  rw [hruns.row, hL]
  decide +kernel

end HiLo
