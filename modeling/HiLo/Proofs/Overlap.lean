/-
HiLo.Proofs.Overlap — calls that overlap equal calls in a row.

A first call draws, others begin meanwhile and come to wait for its lock, and then all of
them go on. `overlap_equals_row` says that they get what as many calls in a row get, in
the order in which they come to the lock, and that the source is asked the same.
The others have to wait until the first call gives the lock back, but not until it is over: it
still reports and returns then, and may be overtaken at that (`waiting_call_ends_first`).

While they wait the others may have counted lo up, or used up their attempts at an odd
version. None of this shows: lo is past its block then and the answer of the source
starts it over (`Queues`), and if there is no answer, all that matters to the next call
is that it is still past the block (`Turns`).
-/
import HiLo.Proofs.Turns

namespace HiLo

variable {σ ε : Type}

/-! ## The scene -/

/-- Calls that overlap. With some cells and a state of the source, and all threads idle, the
thread `i` makes a call, by itself until it draws. While it draws, the `others` begin calls
and come to wait for the lock. Then all of them go on in any order until their calls are
over. `M` is the machine where all others wait, and `M'` the one where all is over. -/
structure Overlap (A : Arena σ ε) (m : Memory) (s : σ) (i : Nat) (others : List Nat)
    (M M' : Machine σ ε) : Prop where
  apart : (i :: others).Nodup
  begun : ∃ threads M₀ alone together,
    A.runWhile (fun M j => j == i && !M.drawing i) (.idle threads m s) alone = some M₀ ∧
      A.runWhile (fun M _ => M.drawing i) M₀ together = some M
  draws : M.drawing i = true
  wait : ∀ j ∈ others, M.waiting j = true
  callers : ∀ j, M.busy j = true → j ∈ i :: others
  ended : ∃ rest, A.runWhile (fun M j => M.busy j) M rest = some M'
  idle : M'.Idle

/-! ## The first answer -/

section

variable {S : Source σ ε} {kind : LockKind} {L : Layout} {n : Nat} {m : Memory} {k : Stock}
  {hi : Int64} {s : σ} {f : Reply ε → Routine ε} {a : Reply ε}

/-- With what the source has answered before, a call that goes on with the last answer
follows a call on the stock. -/
theorem Refills.follows (h : Refills S kind L hi f) (ha : (S.draw s).reply = some a)
    (spent : k.Spent L.size) (hfits : Fits L n m k) (hn : 0 < n) (hhi : m.hi = hi)
    (hm : m.poisoned = false) :
    let p := (f a).run S kind m (S.draw s).state
    Follows L kind n { p with acts := (S.draw s).answers.map .asked ++ p.acts }
      (k.serve S L.size s) ∧ p.acts.filterMap Act.answer? = [] := by
  intro p
  have hfollows : Follows L kind n p (k.told (S.draw s).state a) :=
    h n m k _ a (Source.draw_some ha).2.2 hfits hn hhi hm
  have hnone : p.acts.filterMap Act.answer? = [] := by
    rw [hfollows.answers]
    cases a <;> rfl
  rw [Stock.serve_of_spent spent, Stock.refill_of_reply ha]
  refine ⟨{ hfollows with answers := ?_ }, hnone⟩
  rw [List.filterMap_append, filterMap_answer?_asked, hnone, List.append_nil]

end

/-- A call that was answered from the source had nothing left. -/
theorem Stock.spent_of_answers {S : Source σ ε} {size : Nat} {k : Stock} {s : σ}
    (h : (k.serve S size s).answers ≠ []) : k.Spent size := by
  cases k with
  | none => trivial
  | block hi given =>
    refine Nat.le_of_not_lt fun hlt => h ?_
    rw [serve, if_pos hlt]

/-- A call with nothing left ends with what its draw found. -/
theorem Stock.exists_reply {S : Source σ ε} {size : Nat} {k : Stock} {s : σ}
    (spent : k.Spent size) (h : (k.serve S size s).ending ≠ .unsettled) :
    ∃ a, (S.draw s).reply = some a := by
  rw [serve_of_spent spent] at h
  cases hr : (S.draw s).reply with
  | some a => exact ⟨a, rfl⟩
  | none => simp [refill, ended, hr] at h

/-- A call that was answered by the source found a sound lock. -/
theorem Orderly.sound_of_answers {S : Source σ ε} {kind : LockKind} {L : Layout} {strict : Bool}
    {st : Stage} {c : Routine ε} {m : Memory} {s : σ} {r : Reply ε} (h : Orderly L strict st c)
    (outside : ∃ seen, st = .outside seen)
    (answered : r ∈ (c.run S kind m s).acts.filterMap Act.answer?) : m.poisoned = false := by
  rw [Bool.eq_false_iff]
  intro hspoiled
  rw [h.run_silent S kind m s outside hspoiled] at answered
  cases answered

/-- **The first call is at work**: it goes on as if it had been alone. -/
theorem Queues.works {A : Arena σ ε} {L : Layout} {strict : Bool} {base i : Nat} {hi : Int64}
    {k : Stock} {s : σ} {M : Machine σ ε} {D : Desk σ} (h : Queues A L strict base hi k s i M)
    (kept : Kept L strict base M) (spent : k.Spent L.size) (desk : D = ⟨k, false, s⟩)
    (draws : M.drawing i = true) (settles : (D.serve A.source L.size).ending ≠ .unsettled) :
    Works A.source A.kind L strict (D.serve A.source L.size)
      (D.after A.source (A.kind == .poisoning) L.size) M i := by
  subst desk
  obtain ⟨hholder, f, hf, hrefills⟩ := h.draws_of_drawing draws
  obtain ⟨a, ha⟩ := Stock.exists_reply spent settles
  obtain ⟨rest, hyields, hall⟩ := h.yields a ha
  obtain ⟨hfollows, hnone⟩ := hrefills.follows ha spent h.fits (L.reach_pos _ _) h.same h.sound
  -- what is left of the call is inside, so it keeps the lock as it should
  obtain ⟨st, horderly, hst⟩ := kept.orderly hf
  have hinside : ∃ hi clean, st = .inside hi clean ∧ M.memory.hi = hi := by
    cases st with
    | inside hi clean => exact ⟨hi, clean, rfl, hst.2.1⟩
    | outside seen => exact absurd hholder hst.1
    | past crashed => exact absurd hholder hst
  obtain ⟨hi', clean, rfl, hhi⟩ := hinside
  cases horderly with
  | draw hrest =>
    have hafter := hrest a (Source.draw_some ha).2.2
    have hranged : strict = true → Ranged L true 0 M.memory.lo := fun hstrict => by
      have hranged := hstrict ▸ kept.ranged
      exact ⟨hranged.low, hranged.high⟩
    have hattends : Attends L strict _ _ _ _ := hfollows.attends (D := ⟨k, false, s⟩) rfl
      (hafter.run_poisoned A.source A.kind M.memory _ ⟨hhi, h.sound⟩ hranged) fun hstrict => by
        subst hstrict
        exact hafter.run_strict A.source A.kind _ (fun _ _ hst => (Stage.inside.inj hst).1 ▸ hhi)
          (hranged rfl)
    refine ⟨⟨_, _, _, hf, .draw hyields (.of_run (f a) M.memory _ ?_), hattends.ending,
      hattends.source, ?_, hattends.holds⟩, h.endings_eq_nil i⟩
    · rw [← hattends.ending] at settles
      exact settles
    · rw [List.filterMap_append, filterMap_answer?_asked, hnone, List.append_nil, hall,
        ← hattends.answers, List.filterMap_append, filterMap_answer?_asked, hnone, List.append_nil]

/-- **When all others wait, the first call has its turn.** -/
theorem Queues.turns {A : Arena σ ε} {L : Layout} {strict : Bool} {base i : Nat} {hi : Int64}
    {k : Stock} {s : σ} {others : List Nat} {M : Machine σ ε} {D : Nat → Desk σ}
    (h : Queues A L strict base hi k s i M) (kept : Kept L strict base M)
    (spent : k.Spent L.size) (row : Row A L (i :: others).length D) (desk : D 0 = ⟨k, false, s⟩)
    (draws : M.drawing i = true)
    (wait : ∀ j ∈ others, M.waiting j = true) (callers : ∀ j, M.busy j = true → j ∈ i :: others) :
    Turns A L strict D (i :: others) i M := by
  have hholder := (h.draws_of_drawing draws).1
  have hentries : M.entries = [i] := by
    rw [h.entries, hholder]
    rfl
  have hworks := h.works kept spent desk draws (row.settles (Nat.succ_pos _))
  rw [← row.next] at hworks
  refine { first := ?_, nodup := ?_, called := ?_, waits := fun {j} hj hnew => ?_,
           calls := fun hbusy => callers _ (Machine.busy_of_call hbusy),
           settled := fun hentry hfree => absurd ?_ hfree, held := fun {j} hheld => ?_,
           free := fun hnone => absurd (hholder.symm.trans hnone) nofun }
  · rw [hentries]
    rfl
  · rw [hentries]
    exact List.pairwise_singleton _ i
  · rw [hentries]
    exact fun j hj => List.mem_singleton.mp hj ▸ List.mem_cons_self
  · rw [hentries, List.mem_singleton] at hnew
    have hne : M.holder ≠ some j := by simpa [hholder] using Ne.symm hnew
    exact ⟨h.section_of_waiting hne (wait j (List.mem_of_ne_of_mem hnew hj)),
      h.answers_eq_nil hnew, h.endings_eq_nil j⟩
  · rw [hentries] at hentry
    rw [List.mem_singleton.mp (List.mem_of_getElem? hentry)]
    exact hholder
  · obtain rfl := Option.some.inj (hholder.symm.trans hheld)
    rw [hentries]
    exact ⟨0, rfl, rfl, hworks⟩

/-- **The whole scene**: until the first answer only the first call asks and none ends, and
then all take their turns. -/
theorem Overlap.turns {A : Arena σ ε} {L : Layout} {strict : Bool} {base i : Nat} {m : Memory}
    {k : Stock} {s : σ} {others : List Nat} {M M' : Machine σ ε} {D : Nat → Desk σ}
    (h : Overlap A m s i others M M') (orderly : Orderly L strict (.outside false) A.call)
    (call : Approaches L m.hi (Wants A.source A.kind L strict) A.call)
    (holds : Holds L strict (L.reach strict base) m (⟨k, false, s⟩ : Desk σ))
    (spent : k.Spent L.size) (row : Row A L (i :: others).length D) (desk : D 0 = ⟨k, false, s⟩)
    (room : base + (Ledger.ofLog L M'.log).bumps < 2 ^ 62) :
    (∀ x ∈ M.log, (∀ e, x.2 ≠ .ended e) ∧ ∀ r, x.2 = .did (.asked r) → x.1 = i) ∧
      Turns A L strict D (i :: others) i M' ∧ Exits i M.log M' := by
  obtain ⟨threads, M₀, alone, together, hfirst, hothers⟩ := h.begun
  obtain ⟨rest, hrest⟩ := h.ended
  have hbumps := Arena.bumps_runWhile L hothers
  have hbumps' := Arena.bumps_runWhile L hrest
  have kept : Kept L strict base (Machine.idle threads m s : Machine σ ε) :=
    .idle holds.ranged_of_reach (holds.fits.untouched_of_spent spent)
  have kept₀ : Kept L strict base M₀ :=
    kept.run orderly (Arena.run_of_runWhile hfirst) (by omega)
  have queues : Queues A L strict base m.hi k s i M := Queues.run_others spent call orderly hothers
    h.draws (by omega) kept₀ (.run_first spent call orderly hfirst (by omega) kept
      (.idle threads i rfl holds.poisoned holds.fits))
  have kept₁ : Kept L strict base M := kept₀.run orderly (Arena.run_of_runWhile hothers) (by omega)
  have turns := queues.turns kept₁ spent row desk h.draws h.wait h.callers
  have exits : Exits i M.log M := .inl ⟨(queues.draws_of_drawing h.draws).1, [], rfl, nofun⟩
  exact ⟨fun x hx => ⟨queues.unended x hx, queues.asks x hx⟩,
    Turns.run orderly row hrest room kept₁ turns exits⟩

/-! ## When all is over -/

namespace Turns

variable {A : Arena σ ε} {L : Layout} {strict : Bool} {D : Nat → Desk σ} {callers : List Nat}
  {i t j : Nat} {M : Machine σ ε}

theorem free_of_idle (h : Turns A L strict D callers i M) (idle : M.Idle) : M.holder = none :=
  idle.free fun _ hj =>
    have ⟨_, _, _, ⟨r, _, _, hr, _⟩, _⟩ := h.held hj
    ⟨r, hr⟩

/-- All callers have had their turn. -/
theorem perm (h : Turns A L strict D callers i M) (idle : M.Idle) (nodup : callers.Nodup) :
    M.entries.Perm callers := by
  refine (List.perm_ext_iff_of_nodup h.nodup nodup).mpr fun j => ⟨h.called j, fun hj => ?_⟩
  by_contra hnew
  obtain ⟨w, hw, -⟩ := (h.waits hj hnew).wants
  simpa [idle j] using Machine.busy_of_call hw

/-- A call that is over got what a call at the desk gets. -/
theorem at_desk (h : Turns A L strict D callers i M) (idle : M.Idle)
    (entry : M.entries[t]? = some j) :
    M.endings j = [((D t).serve A.source L.size).ending] ∧
      M.answers j = ((D t).serve A.source L.size).answers := by
  obtain ⟨hanswers, ⟨-, hending⟩ | ⟨r, hr, -⟩⟩ := h.settled entry (by simp [h.free_of_idle idle])
  · exact ⟨hending, hanswers⟩
  · exact absurd (Machine.busy_of_call hr) (by simp [idle j])

/-- All calls, in the order of their turns, end and are answered as the calls in a row. -/
theorem map_entries {cs : List (Called σ ε)} (h : Turns A L strict D callers i M) (idle : M.Idle)
    (length : M.entries.length = cs.length)
    (attend : ∀ t (c : Called σ ε), cs[t]? = some c → c.ServedAs ((D t).serve A.source L.size)) :
    M.entries.map (fun j => (M.endings j, M.answers j))
      = cs.map (fun c => ([c.ending], c.acts.filterMap Act.answer?)) := by
  refine List.ext_getElem (by simp [length]) fun t ht ht' => ?_
  rw [List.length_map] at ht ht'
  obtain ⟨hending, hanswers⟩ := h.at_desk idle (List.getElem?_eq_getElem ht)
  obtain ⟨hending', -, hanswers'⟩ := attend t _ (List.getElem?_eq_getElem ht')
  rw [List.getElem_map, List.getElem_map, hending, hanswers, hending', hanswers']

/-- Where crashes spoil locks and the first call has crashed, the others are refused. -/
theorem refused_of_crash (h : Turns A L strict D callers i M) (idle : M.Idle)
    (row : Row A L callers.length D) (kind : A.kind = .poisoning) {text : String}
    (crash : M.endings i = [.crashed text]) (old : j ∈ M.entries) (ne : j ≠ i) :
    M.endings j = [.failed .poisoned] ∧ M.answers j = [] := by
  have hzero : M.entries[0]? = some i := List.head?_eq_getElem? ▸ h.first
  have hclosed : (D 1).closed = true := by
    have hending := List.singleton_inj.mp ((h.at_desk idle hzero).1.symm.trans crash)
    rw [row.next, Desk.after, hending, kind]
    exact Bool.or_true _
  obtain ⟨t, ht⟩ := List.mem_iff_getElem?.mp old
  obtain ⟨hending, hanswers⟩ := h.at_desk idle ht
  cases t with
  | zero => exact absurd (Option.some.inj (ht.symm.trans hzero)) ne
  | succ t =>
    rw [Nat.add_comm, row.closed hclosed, Desk.serve_of_closed hclosed] at hending hanswers
    exact ⟨hending, hanswers⟩

end Turns

/-! ## The theorem -/

/-- **Calls that overlap equal calls in a row.** Take a shared generator in a state that any
interleaving of calls can lead to and in which the next call asks the source. Let a first
call get into its draw, let others come meanwhile and wait for the lock, and then let all
go on. Until the first call gives the lock back, none of the others ends or asks, and from
then on the first one only reports and ends. In the order in which they come to the lock,
the calls end as calls in a row from the same state do, and are answered the same, as long
as lo is counted up fewer than `2 ^ 62` times, overlapped or in a row. After a crash of the
first one, where crashes spoil locks, all others are refused. -/
theorem overlap_equals_row {S : Source σ ε} {kind : LockKind} {d : Design} {L : Layout}
    {threads i : Nat} {s₀ : σ} {sched others : List Nat} {R M M' : Machine σ ε}
    {cs : List (Called σ ε)} (shared : d.isShared = true)
    (hreach : ((Generator.fresh d L).arena S kind).run (.idle threads .fresh s₀) sched = some R)
    (hidle : R.Idle)
    (hcalls : Generator.calls S kind (others.length + 1) ⟨d, L, R.memory⟩ R.source = cs)
    (hasks : ∃ c r, cs.head? = some c ∧ .asked r ∈ c.acts)
    (hsettles : ∀ c ∈ cs, c.ending ≠ .unsettled)
    (hoverlap : Overlap ((Generator.fresh d L).arena S kind) R.memory R.source i others M M')
    (hroom : (Ledger.ofLog L R.log).bumps + (Ledger.ofLog L M'.log).bumps < 2 ^ 62)
    (hroom' : (Ledger.ofLog L R.log).bumps + bumps (cs.flatMap (·.acts)) < 2 ^ 62) :
    (∀ x ∈ M.log, (∀ e, x.2 ≠ .ended e) ∧ ∀ r, x.2 = .did (.asked r) → x.1 = i) ∧
      (∃ crashed later own,
        M'.log = later ++ (i, .did (.released crashed)) :: (own ++ M.log) ∧
        (∀ x ∈ own, x.1 = i) ∧
        ∀ x ∈ later, x.1 = i → (∃ n, x.2 = .did (.noted n)) ∨ ∃ e, x.2 = .ended e) ∧
      M'.entries.head? = some i ∧ M'.entries.Perm (i :: others) ∧
      M'.entries.map (fun j => (M'.endings j, M'.answers j))
        = cs.map (fun c => ([c.ending], c.acts.filterMap Act.answer?)) ∧
      cs.getLast?.map (·.source) = some M'.source ∧
      (kind = .poisoning → ∀ text, M'.endings i = [.crashed text] →
        ∀ j ∈ others, M'.endings j = [.failed .poisoned] ∧ M'.answers j = []) := by
  have horderly : Orderly L d.isStrict (.outside false) (d.routine L : Routine ε) :=
    d.routine_orderly shared
  have hkept : Kept L d.isStrict 0 R := Kept.run horderly hreach (by omega) (.fresh ..)
  have hfree : R.holder = none := hidle.free fun _ => hkept.held
  obtain ⟨c, r, hc, hr⟩ := hasks
  obtain rfl : Generator.call S kind ⟨d, L, R.memory⟩ R.source = c := by
    rw [← hcalls] at hc
    exact Option.some.inj hc
  have hanswered : r ∈ ((d.routine L).run S kind R.memory R.source).acts.filterMap Act.answer? :=
    List.mem_filterMap.mpr ⟨_, hr, rfl⟩
  have hsound : R.memory.poisoned = false := horderly.sound_of_answers ⟨_, rfl⟩ hanswered
  -- the row of calls is one at the desk that the generator holds
  obtain ⟨k, hholds⟩ := hkept.exists_holds hfree hsound R.source
  let D (t : Nat) : Desk σ := Desk.later S (kind == .poisoning) L.size t ⟨k, false, R.source⟩
  have hattend : ∀ t (c : Called σ ε), cs[t]? = some c → c.ServedAs ((D t).serve S L.size) := by
    subst hcalls
    exact Design.calls_attend shared (others.length + 1) hholds hroom'
  have hlength : cs.length = others.length + 1 := hcalls ▸ Generator.length_calls
  have hspent : k.Spent L.size := by
    refine Stock.spent_of_answers (S := S) (s := R.source) fun hnone => ?_
    have hfirst := (hattend 0 _ (List.head?_eq_getElem? ▸ hc)).answers
    rw [show D 0 = ⟨k, false, R.source⟩ from rfl, Desk.serve_of_open rfl, hnone] at hfirst
    exact absurd (hfirst ▸ hanswered) List.not_mem_nil
  have row : Row ((Generator.fresh d L).arena S kind) L (i :: others).length D :=
    ⟨fun t => Desk.later_succ, fun {t} ht => by
      have hlt : t < cs.length := hlength ▸ ht
      have hsettled := hsettles _ (List.getElem_mem hlt)
      rw [(hattend t _ (List.getElem?_eq_getElem hlt)).ending] at hsettled
      exact hsettled⟩
  obtain ⟨hlog, turns, exits⟩ := hoverlap.turns horderly (d.routine_approaches shared _) hholds
    hspent row rfl hroom
  have hover := turns.free_of_idle hoverlap.idle
  have hperm := turns.perm hoverlap.idle hoverlap.apart
  refine ⟨hlog, ?_, turns.first, hperm, ?_, ?_, fun hkind text hcrash j hj => ?_⟩
  · rcases exits with ⟨hheld, -⟩ | ⟨-, hexits⟩
    · exact absurd (hover.symm.trans hheld) nofun
    · exact hexits
  · exact turns.map_entries hoverlap.idle (hperm.length_eq.trans hlength.symm) hattend
  · have hlt : others.length < cs.length := by omega
    have hlast : cs.getLast? = some cs[others.length] := by
      rw [List.getLast?_eq_getElem?, hlength]
      exact List.getElem?_eq_getElem hlt
    have hsource := (turns.free hover).1
    rw [hperm.length_eq, List.length_cons, row.next] at hsource
    rw [hlast, hsource, Option.map_some, (hattend _ _ (List.getElem?_eq_getElem hlt)).source]
    rfl
  · have hne : j ≠ i := fun hji => (List.nodup_cons.mp hoverlap.apart).1 (hji ▸ hj)
    exact turns.refused_of_crash hoverlap.idle row hkind hcrash
      (hperm.mem_iff.mpr (List.mem_cons_of_mem i hj)) hne

/-- A first call that finds its block used up and is answered by a failure, and two others
that have counted lo up and wait meanwhile. One of them takes the lock before the first
call has ended. -/
theorem overlap_equals_row_after_failure :
    let S : Source Nat Unit :=
      ⟨fun n => ([.value 3, .value reserved, .failure (), .value 8][n]?.getD (.value 9), n + 1),
        fun _ => 3⟩
    let A := (Generator.fresh (.optimistic 1) ⟨1, .hilo, by decide⟩).arena S .poisoning
    ∃ R M M', A.run (.idle 1 .fresh 0) (List.replicate 11 0) = some R ∧
      Overlap A R.memory R.source 0 [1, 2] M M' ∧ M'.entries = [0, 2, 1] ∧
      M'.entries.map (fun j => (M'.endings j, M'.answers j))
        = [([.failed (.source ())], [.value reserved, .failure ()]),
          ([.claimed 8 0], [.value 8]), ([.claimed 9 0], [.value 9])] := by
  intro S A
  let L : Layout := ⟨1, .hilo, by decide⟩
  let cs := Generator.calls S .poisoning 3 ⟨.optimistic 1, L, ⟨3, 0, 0, false⟩⟩ 1
  have hscene : ((A.run (.idle 1 .fresh 0) (List.replicate 11 0)).bind fun R =>
      (A.runWhile (fun M j => j == 0 && !M.drawing 0) (.idle 3 R.memory R.source)
        (List.replicate 7 0)).bind fun M₀ =>
      (A.runWhile (fun M _ => M.drawing 0) M₀
        (List.replicate 4 2 ++ [0] ++ List.replicate 4 1)).bind fun M =>
      (A.runWhile (fun M j => M.busy j) M
        ([0, 0, 2, 0] ++ List.replicate 8 2 ++ List.replicate 9 1)).map fun M' =>
      (R.memory, [R.threads.all Option.isNone, M.drawing 0, M.waiting 1, M.waiting 2,
          M'.threads.all Option.isNone], M'.entries,
        [R.source, M.threads.length, (Ledger.ofLog L R.log).bumps,
          (Ledger.ofLog L M'.log).bumps]))
      = some (⟨3, 0, 0, false⟩, [true, true, true, true, true], [0, 2, 1], [1, 3, 1, 6]) := by
    decide +kernel
  obtain ⟨R, hR, hscene⟩ := Option.bind_eq_some_iff.mp hscene
  obtain ⟨M₀, hM₀, hscene⟩ := Option.bind_eq_some_iff.mp hscene
  obtain ⟨M, hM, hscene⟩ := Option.bind_eq_some_iff.mp hscene
  obtain ⟨M', hM', hdata⟩ := Option.map_eq_some_iff.mp hscene
  simp only [Prod.mk.injEq, List.cons.injEq, and_true] at hdata
  obtain ⟨hmemory, ⟨hidle, hdraws, hwaits, hwaits', hidle'⟩, hentries, hsource, hthreads, hbumps,
    hbumps'⟩ := hdata
  have hoverlap : Overlap A R.memory R.source 0 [1, 2] M M' := by
    refine ⟨by decide, ⟨3, M₀, _, _, hM₀, hM⟩, hdraws, by simp [hwaits, hwaits'], fun j hj => ?_,
      ⟨_, hM'⟩, Machine.idle_of_all hidle'⟩
    have hlt := hthreads ▸ Machine.lt_of_busy hj
    simp
    omega
  have hcalls : Generator.calls S .poisoning 3 ⟨.optimistic 1, L, R.memory⟩ R.source = cs := by
    rw [hmemory, hsource]
  refine ⟨R, M, M', hR, hoverlap, hentries, ?_⟩
  have hrow := @overlap_equals_row Nat Unit S .poisoning (.optimistic 1) L 1 0 0 _ [1, 2] R M M' cs
    rfl hR (Machine.idle_of_all hidle) hcalls ⟨_, .failure (), rfl, by decide +kernel⟩
    (by decide +kernel) hoverlap (by rw [hbumps, hbumps']; decide) (by rw [hbumps]; decide +kernel)
  rw [hrow.2.2.2.2.1]
  decide +kernel

/-- **The first call need not be the first to end.** It gives the lock back before it reports the
hi value and ends, so a call that has waited meanwhile may take the lock, claim the next lo
and end before it does. -/
theorem waiting_call_ends_first :
    let S : Source Nat Unit := ⟨fun n => (.value 7, n + 1), fun _ => 1⟩
    let L : Layout := ⟨2, .hilo, by decide⟩
    let g := Generator.fresh (.optimistic 4) L
    let A := g.arena S .poisoning
    let cs := g.calls S .poisoning 2 0
    (∃ c r, cs.head? = some c ∧ .asked r ∈ c.acts) ∧ (∀ c ∈ cs, c.ending ≠ .unsettled) ∧
      ∃ M N M', Overlap A .fresh 0 0 [1] M M' ∧
        (Ledger.ofLog L M'.log).bumps + bumps (cs.flatMap (·.acts)) < 2 ^ 62 ∧
        (∃ sched, A.runWhile (fun M j => M.busy j) M sched = some N) ∧
        (∃ sched, A.runWhile (fun M j => M.busy j) N sched = some M') ∧
        N.endings 1 = [.claimed 7 1] ∧ N.endings 0 = [] ∧ N.busy 0 = true := by
  intro S L g A cs
  have hscene : ((A.runWhile (fun M j => j == 0 && !M.drawing 0) (.idle 2 .fresh 0)
        (List.replicate 5 0)).bind fun M₀ =>
      (A.runWhile (fun M _ => M.drawing 0) M₀ (List.replicate 3 1)).bind fun M =>
      (A.runWhile (fun M j => M.busy j) M (List.replicate 4 0 ++ List.replicate 5 1)).bind fun N =>
      (A.runWhile (fun M j => M.busy j) N [0, 0]).map fun M' =>
      ([M.drawing 0, M.waiting 1, N.busy 0, M'.threads.all Option.isNone],
        [M.threads.length, (Ledger.ofLog L M'.log).bumps], N.endings 1, N.endings 0))
      = some ([true, true, true, true], [2, 2], [.claimed 7 1], []) := by
    decide +kernel
  obtain ⟨M₀, hM₀, hscene⟩ := Option.bind_eq_some_iff.mp hscene
  obtain ⟨M, hM, hscene⟩ := Option.bind_eq_some_iff.mp hscene
  obtain ⟨N, hN, hscene⟩ := Option.bind_eq_some_iff.mp hscene
  obtain ⟨M', hM', hdata⟩ := Option.map_eq_some_iff.mp hscene
  simp only [Prod.mk.injEq, List.cons.injEq, and_true] at hdata
  obtain ⟨⟨hdraws, hwaits, hbusy, hidle⟩, ⟨hthreads, hbumps⟩, hother, hfirst⟩ := hdata
  have hoverlap : Overlap A .fresh 0 0 [1] M M' := by
    refine ⟨by decide, ⟨2, M₀, _, _, hM₀, hM⟩, hdraws, by simp [hwaits], fun j hj => ?_,
      ⟨_, Arena.runWhile_append hM' hN⟩, Machine.idle_of_all hidle⟩
    have hlt := hthreads ▸ Machine.lt_of_busy hj
    simp
    omega
  refine ⟨⟨_, .value 7, rfl, by decide +kernel⟩, by decide +kernel, M, N, M', hoverlap, ?_,
    ⟨_, hN⟩, ⟨_, hM'⟩, hother, hfirst, hbusy⟩
  rw [hbumps]
  decide +kernel

end HiLo
