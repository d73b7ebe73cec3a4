/-
HiLo.Proofs.Sharing — generators that share one source.

The members of a fleet draw their hi values from one source, in whatever order they are
called. If its usable answers differ, every one of them goes to one member and every
pair is handed out once, also across members, whatever fails or crashes on the way
(`shared_source_apart`). So identifiers differ where the members agree on how a pair is
read: with one capacity if hi is multiplied by it, and with hi values a block apart if
identifiers are counted from hi itself.

`Divided` is the invariant. What a member has left of its block is its own: nobody else
has returned a pair of this hi, and its pairs are below what is left.
-/
import HiLo.Proofs.Numbering
import HiLo.Proofs.Poisoning
import HiLo.Proofs.Values
import Mathlib.Data.List.Nodup
import Mathlib.Data.List.Pairwise

namespace HiLo

variable {σ ε : Type}

/-! ## Calls of a fleet -/

def Ending.pair? : Ending ε → Option (Int64 × Int64)
  | .claimed hi lo => some (hi, lo)
  | _ => none

/-- The pairs that calls of members returned, with the members, in order. -/
def returned (cs : List (Nat × Called σ ε)) : List (Nat × Int64 × Int64) :=
  cs.filterMap fun x => x.2.ending.pair?.map (x.1, ·)

/-- The usable hi values that the source answered in calls of members, in order. -/
def taken (cs : List (Nat × Called σ ε)) : List Int64 := usable (cs.map fun x => x.2.shown)

theorem Ending.pair?_eq_some {e : Ending ε} {hi lo : Int64} :
    e.pair? = some (hi, lo) ↔ e = .claimed hi lo := by
  cases e <;> simp [pair?]

theorem mem_returned {cs : List (Nat × Called σ ε)} {i : Nat} {hi lo : Int64} :
    (i, hi, lo) ∈ returned cs ↔ ∃ c, (i, c) ∈ cs ∧ c.ending = .claimed hi lo := by
  simp [returned, List.mem_filterMap, Ending.pair?_eq_some]

theorem returned_append (cs : List (Nat × Called σ ε)) (i : Nat) (c : Called σ ε) :
    returned (cs ++ [(i, c)]) = returned cs ++ (c.ending.pair?.map (i, ·)).toList := by
  unfold returned
  rw [List.filterMap_append]
  cases h : c.ending.pair? <;> simp [h]

theorem taken_append (cs cs' : List (Nat × Called σ ε)) :
    taken (cs ++ cs') = taken cs ++ taken cs' := by
  simp [taken, usable]

theorem taken_singleton (i : Nat) (c : Called σ ε) :
    taken [(i, c)] = (c.acts.filterMap Act.answer?).filterMap Reply.usable? := by
  simp [taken, usable, Called.shown]

/-- The calls of a fleet take what the source gives, one answer after another. -/
theorem Fleet.gives (S : Source σ ε) (kind : LockKind) :
    ∀ (names : List Nat) (F : Fleet σ),
      S.Gives F.source ((F.calls S kind names).1.flatMap fun x => x.2.acts.filterMap Act.answer?)
        (F.calls S kind names).2.source
  | [], F => .nothing
  | i :: names, F => by
    cases hg : F.generator? i with
    | none =>
      rw [calls_cons_of_none hg]
      exact gives S kind names F
    | some g =>
      rw [calls_cons hg]
      exact (Routine.gives S kind (g.design.routine g.layout) g.memory F.source).append
        (gives S kind names (F.settle i (g.call S kind F.source).generator
          (g.call S kind F.source).source))

/-- A call leaves every member with its layout. -/
theorem Fleet.layout_of_mem {S : Source σ ε} {kind : LockKind} {i : Nat} {c : Called σ ε} :
    ∀ {names : List Nat} {F : Fleet σ}, (i, c) ∈ (F.calls S kind names).1 →
      ∃ g, F.generator? i = some g ∧ c.generator.layout = g.layout
  | [], F, h => by cases h
  | j :: names, F, h => by
    cases hg : F.generator? j with
    | none =>
      rw [calls_cons_of_none hg] at h
      exact layout_of_mem h
    | some g =>
      rw [calls_cons hg, List.mem_cons] at h
      rcases h with heq | h
      · obtain ⟨rfl, rfl⟩ := Prod.mk.inj heq
        exact ⟨g, hg, rfl⟩
      · obtain ⟨g', hg', hlayout⟩ := layout_of_mem h
        by_cases hij : i = j
        · subst hij
          rw [generator?_settle_self hg] at hg'
          obtain rfl := Option.some.inj hg'
          exact ⟨g, hg, hlayout⟩
        · rw [generator?_settle_of_ne hij] at hg'
          exact ⟨g', hg', hlayout⟩

/-! ## What a call takes from a desk -/

/-- A call hands out the next pair of the block on its desk, or the first one of a block
that it has just drawn, or no pair, and then it has drawn no hi either. -/
theorem Desk.serve_deals (S : Source σ ε) (spoils : Bool) (size : Nat) (D : Desk σ) :
    (∃ hi given, D.stock = .block hi given ∧ given < size ∧
      (D.serve S size).ending = .claimed hi (.ofNat given) ∧
      (D.after S spoils size).stock = .block hi (given + 1) ∧
      (D.serve S size).answers.filterMap Reply.usable? = []) ∨
    (∃ hi, hi ≠ reserved ∧ (D.serve S size).ending = .claimed hi (.ofNat 0) ∧
      (D.after S spoils size).stock = .block hi 1 ∧
      (D.serve S size).answers.filterMap Reply.usable? = [hi]) ∨
    ((D.serve S size).ending.pair? = none ∧ (D.after S spoils size).stock = D.stock ∧
      (D.serve S size).answers.filterMap Reply.usable? = []) := by
  cases hclosed : D.closed with
  | true =>
    rw [after_of_closed hclosed, serve_of_closed hclosed]
    exact .inr (.inr ⟨rfl, rfl, rfl⟩)
  | false =>
    rw [after, serve_of_open hclosed]
    rcases Stock.serve_cases S size D.stock D.source with ⟨hi, given, hk, room, heq⟩ | ⟨-, heq⟩
    · rw [heq]
      exact .inl ⟨hi, given, hk, room, rfl, rfl, rfl⟩
    · have hanswers := (S.draw D.source).filterMap_answers
      rw [heq]
      unfold Stock.refill Stock.ended Stock.refilled
      cases hr : (S.draw D.source).reply with
      | none => exact .inr (.inr ⟨rfl, rfl, by rw [hanswers, hr]; rfl⟩)
      | some r =>
        rw [hr] at hanswers
        cases r with
        | value hi =>
          have ne := Source.draw_ne_reserved hr
          exact .inr (.inl ⟨hi, ne, rfl, rfl, by rw [hanswers]; simp [Reply.usable?, ne]⟩)
        | failure cause => exact .inr (.inr ⟨rfl, rfl, hanswers⟩)
        | crash text => exact .inr (.inr ⟨rfl, rfl, hanswers⟩)

/-! ## The invariant -/

/-- What the calls of a fleet returned and took fits together: every hi that was taken is
in use with one member, and no pair was returned twice. -/
structure Apart (past : List (Nat × Called σ ε)) : Prop where
  used {hi : Int64} (took : hi ∈ taken past) : ∃ i lo, (i, hi, lo) ∈ returned past
  known {i : Nat} {hi lo : Int64} (pair : (i, hi, lo) ∈ returned past) : hi ∈ taken past
  own {i j : Nat} {hi lo lo' : Int64} (pair : (i, hi, lo) ∈ returned past)
    (other : (j, hi, lo') ∈ returned past) : i = j
  once : ((returned past).map Prod.snd).Nodup
  inside {i : Nat} {c : Called σ ε} {hi lo : Int64} (call : (i, c) ∈ past)
    (pair : c.ending = .claimed hi lo) : hi ≠ reserved ∧ 0 ≤ lo ∧ lo < c.generator.layout.capacity

/-- A member owns a hi of which it has given out so much: it has returned a pair of it, and
all pairs of it are the member's and below what is left. -/
structure Owns (past : List (Nat × Called σ ε)) (i : Nat) (hi : Int64) (given : Nat) : Prop where
  started : ∃ lo, (i, hi, lo) ∈ returned past
  below {j : Nat} {lo : Int64} (pair : (j, hi, lo) ∈ returned past) : j = i ∧ lo.toInt < given

/-- Every member holds a desk, and owns the hi on it. -/
def Divided (n : Nat) (past : List (Nat × Called σ ε)) (F : Fleet σ) : Prop :=
  ∀ i g, F.generator? i = some g → ∃ D : Desk σ, Keeps n g D ∧ D.source = F.source ∧
    ∀ hi given, D.stock = .block hi given → Owns past i hi given

section Calls

variable {S : Source σ ε} {kind : LockKind} {n i j : Nat} {past : List (Nat × Called σ ε)}
  {F : Fleet σ} {g : Generator} {c : Called σ ε} {hi lo : Int64}

/-- What was returned with one more call that returned a pair. -/
theorem mem_returned_append (pair : c.ending = .claimed hi lo) {hi' lo' : Int64} :
    (j, hi', lo') ∈ returned (past ++ [(i, c)]) ↔
      (j, hi', lo') ∈ returned past ∨ j = i ∧ hi' = hi ∧ lo' = lo := by
  rw [returned_append, Ending.pair?_eq_some.mpr pair]
  simp

/-- What was returned with one more call that returned no pair. -/
theorem returned_append_of_none (none : c.ending.pair? = none) :
    returned (past ++ [(i, c)]) = returned past := by
  simp [returned_append, none]

theorem Apart.nil : Apart ([] : List (Nat × Called σ ε)) where
  used := nofun
  known := nofun
  own := nofun
  once := .nil
  inside := nofun

/-- One more call with a pair above those of its hi, which are the member's. -/
theorem Apart.deal (h : Apart past) (pair : c.ending = .claimed hi lo)
    (above : ∀ {j lo'}, (j, hi, lo') ∈ returned past → j = i ∧ lo'.toInt < lo.toInt)
    (took : ∀ x, x ∈ taken (past ++ [(i, c)]) ↔ x ∈ taken past ∨ x = hi)
    (inside : hi ≠ reserved ∧ 0 ≤ lo ∧ lo < c.generator.layout.capacity) :
    Apart (past ++ [(i, c)]) where
  used {x} hx := by
    rcases (took x).mp hx with hx | rfl
    · obtain ⟨j, lo', hpair⟩ := h.used hx
      exact ⟨j, lo', (mem_returned_append pair).mpr (.inl hpair)⟩
    · exact ⟨i, lo, (mem_returned_append pair).mpr (.inr ⟨rfl, rfl, rfl⟩)⟩
  known {j hi' lo'} hpair := by
    rcases (mem_returned_append pair).mp hpair with hpair | ⟨-, rfl, -⟩
    · exact (took _).mpr (.inl (h.known hpair))
    · exact (took _).mpr (.inr rfl)
  own {j j' hi' lo' lo''} hpair hother := by
    rcases (mem_returned_append pair).mp hpair with hold | ⟨rfl, rfl, -⟩
    · rcases (mem_returned_append pair).mp hother with hold' | ⟨rfl, rfl, -⟩
      · exact h.own hold hold'
      · exact (above hold).1
    · rcases (mem_returned_append pair).mp hother with hold' | ⟨rfl, -, -⟩
      · exact (above hold').1.symm
      · rfl
  once := by
    have hnew : (hi, lo) ∉ (returned past).map Prod.snd := by
      intro hmem
      obtain ⟨⟨j, _, _⟩, hpair, heq⟩ := List.mem_map.mp hmem
      obtain ⟨rfl, rfl⟩ := Prod.mk.inj heq
      exact Int.lt_irrefl _ (above hpair).2
    rw [returned_append, Ending.pair?_eq_some.mpr pair, List.map_append]
    refine List.nodup_append.mpr ⟨h.once, List.nodup_singleton _, ?_⟩
    rintro x hx y hy rfl
    obtain rfl := List.mem_singleton.mp hy
    exact hnew hx
  inside {j c' hi' lo'} hcall hpair := by
    rcases List.mem_append.mp hcall with hcall | hcall
    · exact h.inside hcall hpair
    · obtain ⟨rfl, rfl⟩ := Prod.mk.inj (List.mem_singleton.mp hcall)
      obtain ⟨rfl, rfl⟩ := Ending.claimed.inj (pair.symm.trans hpair)
      exact inside

/-- One more call without a pair, which took nothing. -/
theorem Apart.vain (h : Apart past) (none : c.ending.pair? = none)
    (took : taken (past ++ [(i, c)]) = taken past) : Apart (past ++ [(i, c)]) where
  used := by
    rw [returned_append_of_none none, took]
    exact h.used
  known := by
    rw [returned_append_of_none none, took]
    exact h.known
  own := by
    rw [returned_append_of_none none]
    exact h.own
  once := by
    rw [returned_append_of_none none]
    exact h.once
  inside {j c' hi' lo'} hcall hpair := by
    rcases List.mem_append.mp hcall with hcall | hcall
    · exact h.inside hcall hpair
    · obtain ⟨rfl, rfl⟩ := Prod.mk.inj (List.mem_singleton.mp hcall)
      rw [Ending.pair?_eq_some.mpr hpair] at none
      cases none

/-- A member's hi stays its own when another member returns a pair that is above those of
its own hi. -/
theorem Owns.deal {given : Nat} {hi' : Int64} (h : Owns past j hi' given) (ne : j ≠ i)
    (pair : c.ending = .claimed hi lo)
    (above : ∀ {j lo'}, (j, hi, lo') ∈ returned past → j = i ∧ lo'.toInt < lo.toInt) :
    Owns (past ++ [(i, c)]) j hi' given where
  started := by
    obtain ⟨lo', hpair⟩ := h.started
    exact ⟨lo', (mem_returned_append pair).mpr (.inl hpair)⟩
  below {j' lo'} hpair := by
    rcases (mem_returned_append pair).mp hpair with hpair | ⟨rfl, rfl, rfl⟩
    · exact h.below hpair
    · obtain ⟨lo'', hpair'⟩ := h.started
      exact absurd (above hpair').1 ne

/-- A member owns the hi of the pair that it has just returned. -/
theorem Owns.of_deal {given : Nat} (pair : c.ending = .claimed hi lo) (hlo : lo.toInt = given)
    (above : ∀ {j lo'}, (j, hi, lo') ∈ returned past → j = i ∧ lo'.toInt < lo.toInt) :
    Owns (past ++ [(i, c)]) i hi (given + 1) where
  started := ⟨lo, (mem_returned_append pair).mpr (.inr ⟨rfl, rfl, rfl⟩)⟩
  below {j lo'} hpair := by
    rcases (mem_returned_append pair).mp hpair with hpair | ⟨rfl, -, rfl⟩
    · obtain ⟨rfl, hlt⟩ := above hpair
      exact ⟨rfl, by omega⟩
    · exact ⟨rfl, by omega⟩

/-- A new fleet is divided. -/
theorem Divided.new {F : Fleet σ} (new : ∀ m ∈ F.members, m.New) :
    Divided 0 ([] : List (Nat × Called σ ε)) F := by
  intro i g hg
  obtain ⟨m, hm, hmg⟩ := Option.bind_eq_some_iff.mp hg
  obtain ⟨d, L, rfl⟩ := (new m (List.mem_of_getElem? hm)).exists_fresh hmg
  exact ⟨⟨.none, false, F.source⟩, ⟨.fresh L _ _, nofun⟩, rfl, nofun⟩

/-- A fleet stays divided, if the member that was called owns what is on its desk and the
others own what they did. -/
theorem Divided.settle (h : Divided n past F) {past' : List (Nat × Called σ ε)} {D' : Desk σ}
    (hg : F.generator? i = some g) (keeps : Keeps (n + 2) c.generator D')
    (source : D'.source = c.source)
    (owns : ∀ hi given, D'.stock = .block hi given → Owns past' i hi given)
    (others : ∀ j hi given, j ≠ i → Owns past j hi given → Owns past' j hi given) :
    Divided (n + 2) past' (F.settle i c.generator c.source) := by
  intro j g' hg'
  by_cases hj : j = i
  · subst hj
    rw [Fleet.generator?_settle_self hg] at hg'
    obtain rfl := Option.some.inj hg'
    exact ⟨D', keeps, source, owns⟩
  · rw [Fleet.generator?_settle_of_ne hj] at hg'
    obtain ⟨D, hkeeps, -, howns⟩ := h j g' hg'
    exact ⟨{ D with source := c.source }, ⟨(hkeeps.holds.mono (by omega)).congr rfl rfl,
      hkeeps.shared⟩, rfl, fun hi given hk => others j hi given hj (howns hi given hk)⟩

/-- **One call of one member keeps the source divided**, if the source does not repeat
itself. -/
theorem Divided.call (h : Divided n past F) (apart : Apart past) (S : Source σ ε)
    (kind : LockKind) (hn : n + 1 < 2 ^ 63) (hg : F.generator? i = some g) :
    let c := g.call S kind F.source
    (taken (past ++ [(i, c)])).Nodup →
      Apart (past ++ [(i, c)]) ∧
        Divided (n + 2) (past ++ [(i, c)]) (F.settle i c.generator c.source) := by
  intro c hdistinct
  obtain ⟨D, hkeeps, hsource, howns⟩ := h i g hg
  obtain ⟨hattends, hkeeps'⟩ := hkeeps.attends S kind hn
  rw [hsource] at hattends hkeeps'
  have hanswers : c.acts.filterMap Act.answer? = _ := hattends.answers
  have htaken := taken_append past [(i, c)]
  rw [taken_singleton, hanswers] at htaken
  -- a pair above those of its hi keeps everything in order
  have deal : ∀ {hi : Int64} {given : Nat}, c.ending = .claimed hi (.ofNat given) →
      given < g.layout.size →
      (∀ {j lo'}, (j, hi, lo') ∈ returned past → j = i ∧ lo'.toInt < given) →
      (∀ x, x ∈ taken (past ++ [(i, c)]) ↔ x ∈ taken past ∨ x = hi) →
      (D.after S (g.design.spoils kind) g.layout.size).stock = .block hi (given + 1) →
      Apart (past ++ [(i, c)]) ∧
        Divided (n + 2) (past ++ [(i, c)]) (F.settle i c.generator c.source) := by
    intro hi given hpair room habove htook hstock
    have hlo : (Int64.ofNat given).toInt = given := Layout.toInt_lo room
    have habove' : ∀ {j lo'}, (j, hi, lo') ∈ returned past →
        j = i ∧ lo'.toInt < (Int64.ofNat given).toInt := fun hmem => by
      rw [hlo]
      exact habove hmem
    have hne : hi ≠ reserved := Fits.hi_ne_reserved (hstock ▸ hkeeps'.holds.fits)
    have hinside : hi ≠ reserved ∧ 0 ≤ Int64.ofNat given ∧
        Int64.ofNat given < c.generator.layout.capacity :=
      ⟨hne, Layout.lo_nonneg room, Layout.lo_lt_capacity room⟩
    refine ⟨apart.deal hpair habove' htook hinside, h.settle hg hkeeps' hattends.source.symm ?_ ?_⟩
    · intro hi' given' hk
      obtain ⟨rfl, rfl⟩ := Stock.block.inj (hstock.symm.trans hk)
      exact .of_deal hpair hlo habove'
    · exact fun j hi' given' hj howns' => howns'.deal hj hpair habove'
  rcases D.serve_deals S (g.design.spoils kind) g.layout.size with
    ⟨hi, given, hk, room, hending, hstock, husable⟩ | ⟨hi, hne, hending, hstock, husable⟩ |
      ⟨hnone, hstock, husable⟩
  · rw [husable, List.append_nil] at htaken
    have hmine := howns hi given hk
    refine deal (hattends.ending.trans hending) room hmine.below (fun x => ?_) hstock
    obtain ⟨lo, hpair⟩ := hmine.started
    rw [htaken]
    exact ⟨.inl, fun hx => hx.elim id fun hx => hx ▸ apart.known hpair⟩
  · rw [husable] at htaken
    refine deal (hattends.ending.trans hending) g.layout.size_pos (fun hpair => ?_) (fun x => ?_)
      hstock
    · -- the hi is new, so nobody has returned a pair of it
      rw [htaken] at hdistinct
      exact absurd rfl ((List.nodup_append.mp hdistinct).2.2 hi (apart.known hpair) hi
        List.mem_cons_self)
    · rw [htaken, List.mem_append, List.mem_singleton]
  · rw [husable, List.append_nil] at htaken
    have hnone' : c.ending.pair? = none := (congrArg _ hattends.ending).trans hnone
    refine ⟨apart.vain hnone' htaken, h.settle hg hkeeps' hattends.source.symm ?_ ?_⟩
    · intro hi given hk
      have hmine := howns hi given (hstock.symm.trans hk)
      exact ⟨by rw [returned_append_of_none hnone']; exact hmine.started,
        by rw [returned_append_of_none hnone']; exact hmine.below⟩
    · intro j hi given _ hother
      exact ⟨by rw [returned_append_of_none hnone']; exact hother.started,
        by rw [returned_append_of_none hnone']; exact hother.below⟩

/-- **Calls in any order keep the source divided**, if it does not repeat itself. -/
theorem Divided.calls (S : Source σ ε) (kind : LockKind) :
    ∀ (names : List Nat) {n : Nat} {past : List (Nat × Called σ ε)} {F : Fleet σ},
      Divided n past F → Apart past → n + 2 * names.length < 2 ^ 63 →
      (taken (past ++ (F.calls S kind names).1)).Nodup →
      Apart (past ++ (F.calls S kind names).1)
  | [], n, past, F, _, apart, _, _ => by simpa [Fleet.calls] using apart
  | i :: names, n, past, F, h, apart, hn, hdistinct => by
    rw [List.length_cons] at hn
    cases hg : F.generator? i with
    | none =>
      rw [Fleet.calls_cons_of_none hg] at hdistinct ⊢
      exact h.calls S kind names apart (by omega) hdistinct
    | some g =>
      rw [Fleet.calls_cons hg] at hdistinct ⊢
      rw [← List.singleton_append, ← List.append_assoc] at hdistinct ⊢
      have hfirst : (taken (past ++ [(i, g.call S kind F.source)])).Nodup := by
        rw [taken_append] at hdistinct
        exact (List.nodup_append.mp hdistinct).1
      obtain ⟨apart', h'⟩ := h.call apart S kind (by omega) hg hfirst
      exact h'.calls S kind names apart' (by omega) hdistinct

end Calls

/-! ## Identifiers -/

namespace Layout

variable {L L' : Layout}

/-- Where hi is multiplied, pairs are read alike under one capacity. -/
theorem value_of_hilo (scheme : L.scheme = .hilo) (scheme' : L'.scheme = .hilo)
    (capacity : L.capacity = L'.capacity) (hi lo : Int64) : L'.value hi lo = L.value hi lo := by
  unfold value size
  rw [scheme, scheme', capacity]

/-- Where identifiers are counted from hi, pairs are read alike. -/
theorem value_of_pooled (scheme : L.scheme = .pooled) (scheme' : L'.scheme = .pooled)
    (hi lo : Int64) : L'.value hi lo = L.value hi lo := by
  unfold value
  rw [scheme, scheme']

end Layout

/-- No identifier of a fleet is given out twice, if its members read pairs alike, no block
of a hi reaches into that of another one, and no identifier overflows. -/
theorem Apart.nodup_ids {cs : List (Nat × Called σ ε)} (h : Apart cs)
    (hexact : ∀ x ∈ cs, ∀ hi lo, x.2.ending = .claimed hi lo → x.2.generator.layout.Exact hi lo)
    (alike : ∀ x ∈ cs, ∀ y ∈ cs, ∀ hi lo,
      y.2.generator.layout.value hi lo = x.2.generator.layout.value hi lo)
    (hapart : ∀ x ∈ cs, ∀ y ∈ cs, ∀ hi ∈ taken cs, ∀ hi' ∈ taken cs, hi ≠ hi' →
      x.2.generator.layout.Apart hi hi' ∨ y.2.generator.layout.Apart hi' hi) :
    (ids (cs.map fun x => x.2.shown)).Nodup := by
  have hpairs := h.once
  unfold returned at hpairs
  rw [List.map_filterMap, List.Nodup, List.pairwise_filterMap] at hpairs
  unfold ids
  rw [List.filterMap_map, List.Nodup, List.pairwise_filterMap]
  refine hpairs.imp_of_mem fun {x y} hx hy hne id hid id' hid' heq => ?_
  obtain ⟨⟨hi, lo⟩, hp, hcompose⟩ := Ending.claimed_of_id? hid
  obtain ⟨⟨hi', lo'⟩, hq, hcompose'⟩ := Ending.claimed_of_id? hid'
  obtain ⟨hhi, hlo, hinside⟩ := h.inside hx hp
  obtain ⟨hhi', hlo', hinside'⟩ := h.inside hy hq
  obtain ⟨_, hid₁, hvalue⟩ := Layout.compose_of_exact hhi hlo hinside (hexact x hx hi lo hp)
  obtain ⟨_, hid₂, hvalue'⟩ := Layout.compose_of_exact hhi' hlo' hinside' (hexact y hy hi' lo' hq)
  obtain rfl := Except.ok.inj (hid₁.symm.trans hcompose)
  obtain rfl := Except.ok.inj (hid₂.symm.trans hcompose')
  have hdifferent : (hi, lo) ≠ (hi', lo') := by
    refine hne (hi, lo) ?_ (hi', lo') ?_
    · simp [Ending.pair?_eq_some.mpr hp]
    · simp [Ending.pair?_eq_some.mpr hq]
  have htaken : hi ∈ taken cs := h.known (mem_returned.mpr ⟨_, hx, hp⟩)
  have htaken' : hi' ∈ taken cs := h.known (mem_returned.mpr ⟨_, hy, hq⟩)
  refine Layout.value_ne (alike x hx y hy) (hapart x hx y hy hi htaken hi' htaken') hlo hinside
    hlo' hinside' (fun hsame hlosame => hdifferent (Prod.ext hsame hlosame)) ?_
  rw [← hvalue, ← hvalue', heq]

/-- Two hi values are at least the size of every member's block apart. -/
def Fleet.Distant (F : Fleet σ) (hi hi' : Int64) : Prop :=
  ∀ i g, F.generator? i = some g → g.layout.size ≤ (hi.toInt - hi'.toInt).natAbs

instance (F : Fleet σ) : Std.Symm F.Distant where
  symm hi hi' h i g hg := by
    have := h i g hg
    omega

/-- **Generators that share one source.** Take a fleet of new generators and calls of its
members in any order, with whatever failures and crashes of the source. If the usable
answers of the source differ, then a pair makes an identifier and is returned once by all
members together, and every usable answer that was taken is in use with exactly one
member. So no identifier is given out twice, as long as none overflows, if all members
multiply hi by one and the same capacity, or if all count from hi and any two answers are
distant. -/
theorem shared_source_apart {S : Source σ ε} {kind : LockKind} {F₀ F : Fleet σ}
    {names : List Nat} {cs : List (Nat × Called σ ε)} (new : ∀ m ∈ F₀.members, m.New)
    (hroom : names.length < 2 ^ 62) (hcalls : F₀.calls S kind names = (cs, F)) :
    (∃ n, F.source = S.after n F₀.source ∧ taken cs = S.usables n F₀.source) ∧
      ((taken cs).Nodup →
        (∀ i c hi lo, (i, c) ∈ cs → c.ending = .claimed hi lo → ∃ id, c.outcome = .id id) ∧
        ((returned cs).map Prod.snd).Nodup ∧
        (∀ i hi lo, (i, hi, lo) ∈ returned cs → hi ∈ taken cs) ∧
        (∀ hi ∈ taken cs, ∃! i, ∃ lo, (i, hi, lo) ∈ returned cs) ∧
        ((∀ i g, F₀.generator? i = some g → ∀ hi lo, (i, hi, lo) ∈ returned cs →
            g.layout.Exact hi lo) →
          (∀ capacity, (∀ i g, F₀.generator? i = some g →
              g.layout.scheme = .hilo ∧ g.layout.capacity = capacity) →
            (ids (cs.map fun x => x.2.shown)).Nodup) ∧
          ((∀ i g, F₀.generator? i = some g → g.layout.scheme = .pooled) →
            (taken cs).Pairwise F₀.Distant →
            (ids (cs.map fun x => x.2.shown)).Nodup))) := by
  have hgives := Fleet.gives S kind names F₀
  rw [hcalls] at hgives
  refine ⟨⟨_, hgives.after_eq, ?_⟩, fun hdistinct => ?_⟩
  · rw [← hgives.usables_eq]
    simp [taken, usable, List.flatMap_map, Called.shown]
  have h : Apart cs := by
    have hrun := (Divided.new new).calls S kind names .nil (by omega)
    rw [hcalls, List.nil_append] at hrun
    exact hrun hdistinct
  -- the layout of a call is that of its member
  have hlayout : ∀ x ∈ cs, ∃ g, F₀.generator? x.1 = some g ∧ x.2.generator.layout = g.layout := by
    intro x hx
    have hcs : cs = (F₀.calls S kind names).1 := congrArg Prod.fst hcalls.symm
    exact Fleet.layout_of_mem (hcs ▸ hx)
  refine ⟨fun i c hi lo hc hpair => ?_, h.once, fun _ _ _ => h.known, fun hi hhi => ?_,
    fun hexact => ?_⟩
  · obtain ⟨hne, hlo, hinside⟩ := h.inside hc hpair
    exact ⟨_, by rw [Called.outcome, hpair, Ending.outcome, Layout.compose_eq_ok hne hlo hinside]⟩
  · obtain ⟨i, lo, hpair⟩ := h.used hhi
    refine ⟨i, ⟨lo, hpair⟩, ?_⟩
    rintro j ⟨lo', hother⟩
    exact h.own hother hpair
  have hexact' : ∀ x ∈ cs, ∀ hi lo, x.2.ending = .claimed hi lo →
      x.2.generator.layout.Exact hi lo := by
    intro x hx hi lo hpair
    obtain ⟨g, hg, hlay⟩ := hlayout x hx
    rw [hlay]
    exact hexact x.1 g hg hi lo (mem_returned.mpr ⟨x.2, hx, hpair⟩)
  refine ⟨fun capacity hhilo => ?_, fun hpooled hdistant => ?_⟩
  · have hmember : ∀ x ∈ cs, x.2.generator.layout.scheme = .hilo ∧
        x.2.generator.layout.capacity = capacity := by
      intro x hx
      obtain ⟨g, hg, hlay⟩ := hlayout x hx
      exact hlay ▸ hhilo x.1 g hg
    refine h.nodup_ids hexact' (fun x hx y hy => ?_) fun x hx y hy hi _ hi' _ hne => ?_
    · exact Layout.value_of_hilo (hmember x hx).1 (hmember y hy).1
        ((hmember x hx).2.trans (hmember y hy).2.symm)
    · exact Layout.apart_of_hilo (hmember x hx).1 (hmember y hy).1 hne
  · have hmember : ∀ x ∈ cs, x.2.generator.layout.scheme = .pooled := by
      intro x hx
      obtain ⟨g, hg, hlay⟩ := hlayout x hx
      exact hlay ▸ hpooled x.1 g hg
    have hsize : ∀ x ∈ cs, ∀ hi ∈ taken cs, ∀ hi' ∈ taken cs, hi ≠ hi' →
        x.2.generator.layout.size ≤ (hi.toInt - hi'.toInt).natAbs := by
      intro x hx hi hhi hi' hhi' hne
      obtain ⟨g, hg, hlay⟩ := hlayout x hx
      rw [hlay]
      exact hdistant.forall hhi hhi' hne x.1 g hg
    refine h.nodup_ids hexact' (fun x hx y hy => ?_) fun x hx y hy hi hhi hi' hhi' hne => ?_
    · exact Layout.value_of_pooled (hmember x hx) (hmember y hy)
    · exact Layout.apart_of_pooled (hmember x hx) (hmember y hy)
        (hsize x hx hi hhi hi' hhi' hne) (hsize y hy hi hhi hi' hhi' hne)

/-- Four members with blocks of different sizes, on a source that answers the reserved
value, fails and crashes. -/
theorem shared_source_apart_of_script :
    let F₀ : Fleet Feed := ⟨[.direct (.fresh (.stamped 2) ⟨2, .pooled, by decide⟩),
        .direct (.fresh .plain ⟨3, .pooled, by decide⟩),
        .direct (.fresh .locked ⟨1, .pooled, by decide⟩),
        .facade (.ofLayout ⟨2, .pooled, by decide⟩)],
      .ofSupply (.script (.ofList [.value 9, .crash "down", .value reserved, .value 3,
        .failure .unit, .value (-4), .value 20] false)) false⟩
    let cs := (F₀.calls Feed.source .poisoning [0, 2, 1, 0, 2, 1, 3, 3, 1, 0]).1
    returned cs = [(0, 9, 0), (1, 3, 0), (0, 9, 1), (1, 3, 1), (3, -4, 0), (1, 3, 2), (0, 20, 0)] ∧
      ids (cs.map fun x => x.2.shown) = [9, 3, 10, 4, -4, 5, 20] ∧
      (ids (cs.map fun x => x.2.shown)).Nodup := by
  intro F₀ cs
  have hreturned : returned cs = [(0, 9, 0), (1, 3, 0), (0, 9, 1), (1, 3, 1), (3, -4, 0),
      (1, 3, 2), (0, 20, 0)] := by decide +kernel
  have htaken : taken cs = [9, 3, -4, 20] := by decide +kernel
  have new : ∀ m ∈ F₀.members, m.New := by
    simp only [F₀, List.forall_mem_cons]
    exact ⟨.direct _ _, .direct _ _, .direct _ _, .ofLayout _, nofun⟩
  have hpooled : ∀ i g, F₀.generator? i = some g → g.layout.scheme = .pooled ∧
      g.layout.size ≤ 3 := by
    intro i g hg
    obtain ⟨m, hm, hmg⟩ := Option.bind_eq_some_iff.mp hg
    have hmem := List.mem_of_getElem? hm
    simp only [F₀, List.mem_cons, List.not_mem_nil, or_false] at hmem
    rcases hmem with rfl | rfl | rfl | rfl <;> obtain rfl := Option.some.inj hmg <;>
      exact ⟨rfl, by decide⟩
  have hcalls : F₀.calls Feed.source .poisoning [0, 2, 1, 0, 2, 1, 3, 3, 1, 0] = (cs, _) := rfl
  obtain ⟨-, -, -, -, hids⟩ :=
    (shared_source_apart new (by decide) hcalls).2 (by rw [htaken]; decide)
  refine ⟨hreturned, by decide +kernel, (hids fun i g hg hi lo hmem => ?_).2
    (fun i g hg => (hpooled i g hg).1) ?_⟩
  · rw [hreturned] at hmem
    have hvalue : g.layout.value hi lo = hi.toInt + lo.toInt := by
      unfold Layout.value
      rw [(hpooled i g hg).1]
    have hbounds : ∀ x ∈ [(0, 9, 0), (1, 3, 0), (0, 9, 1), (1, 3, 1), (3, -4, 0), (1, 3, 2),
        ((0, 20, 0) : Nat × Int64 × Int64)],
        -2 ^ 63 ≤ x.2.1.toInt + x.2.2.toInt ∧ x.2.1.toInt + x.2.2.toInt < 2 ^ 63 := by decide
    rw [Layout.Exact, hvalue]
    exact hbounds _ hmem
  · have hfar : [9, 3, -4, (20 : Int64)].Pairwise fun hi hi' =>
        3 ≤ (hi.toInt - hi'.toInt).natAbs := by decide
    rw [htaken]
    exact hfar.imp fun h i g hg => Nat.le_trans (hpooled i g hg).2 h

end HiLo
