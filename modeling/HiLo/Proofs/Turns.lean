/-
HiLo.Proofs.Turns — calls that take their turns under the lock.

One call is at work under the lock and all others wait for it. From then on they take
turns, in the order in which the lock lets them in, and the call number `t` in this order
is served at the desk as `t` calls in a row have left it. It does not matter that a call
which has had its turn may still report and end while the next one is at work, because
that touches no cell.

`Turn` says what a move can be, `Turns` what all of them preserve, and `Turns.run`
follows an interleaving to its end. `Exits` adds that the others stand still until the
first call has left the lock.
-/
import HiLo.Proofs.Queue
import HiLo.Proofs.Series
import Mathlib.Data.List.Perm.Subperm

namespace HiLo

variable {σ ε : Type}

/-! ## Ends of calls -/

/-- A call that has only to report and to end. -/
inductive Tail (e : Ending ε) : Routine ε → Prop where
  | finish : Tail e (.finish e)
  | note {n : Note} {r : Routine ε} (rest : Tail e r) : Tail e (.note n r)

/-- A call that is past the lock has only to report and to end. -/
theorem Orderly.exists_tail {L : Layout} {strict crashed : Bool} {r : Routine ε}
    (h : Orderly L strict (.past crashed) r) : ∃ e, Tail e r := by
  generalize hst : Stage.past crashed = st at h
  induction h with
  | note _ ih =>
    obtain ⟨e, he⟩ := ih hst
    exact ⟨e, .note he⟩
  | ended => exact ⟨_, .finish⟩
  | _ => cases hst

/-- Reports and the end of a call touch neither the cells nor the source. -/
theorem Performs.of_tail {S : Source σ ε} {kind : LockKind} {r : Routine ε} {m : Memory} {s : σ}
    {e : Ending ε} (tail : Tail e r) :
    ∀ {p : Performed σ ε}, Performs S kind r m s p →
      p.ending = e ∧ p.memory = m ∧ p.source = s ∧ p.acts.filterMap Act.answer? = [] := by
  induction tail with
  | finish =>
    intro p h
    obtain rfl := h.of_finish
    exact ⟨rfl, rfl, rfl, rfl⟩
  | note _ ih =>
    intro p h
    obtain ⟨q, hq, rfl⟩ := h.of_step rfl
    obtain ⟨hending, hmemory, hsource, hanswers⟩ := ih hq
    exact ⟨hending, hmemory, hsource, hanswers⟩

/-! ## Threads -/

/-- A thread is in two machines at the same place of the same call, with the same answers
and calls behind it. -/
structure Machine.Alike (M M' : Machine σ ε) (l : Nat) : Prop where
  threads : M'.threads[l]? = M.threads[l]?
  answers : M'.answers l = M.answers l
  endings : M'.endings l = M.endings l

theorem Machine.Alike.of_did {M M' : Machine σ ε} {j l : Nat} {a : Act ε} {o : Option (Routine ε)}
    (threads : M'.threads = M.threads.set j o) (log : M'.log = (j, .did a) :: M.log) (ne : l ≠ j) :
    M.Alike M' l where
  threads := by rw [threads, List.getElem?_set_ne (Ne.symm ne)]
  answers := by
    rw [answers_did log, if_neg (Ne.symm ne)]
    exact List.append_nil _
  endings := endings_did log

theorem Machine.Alike.of_ended {M M' : Machine σ ε} {j l : Nat} {e : Ending ε}
    {o : Option (Routine ε)} (threads : M'.threads = M.threads.set j o)
    (log : M'.log = (j, .ended e) :: M.log) (ne : l ≠ j) : M.Alike M' l where
  threads := by rw [threads, List.getElem?_set_ne (Ne.symm ne)]
  answers := answers_ended log
  endings := by rw [endings_ended log, if_neg (Ne.symm ne)]

/-- A call that waits for the lock. -/
structure Waits (S : Source σ ε) (kind : LockKind) (L : Layout) (strict : Bool)
    (M : Machine σ ε) (j : Nat) : Prop where
  wants : ∃ w, M.threads[j]? = some (some (.acquire w)) ∧ Section S kind L strict w
  answers : M.answers j = []
  endings : M.endings j = []

/-- A call that is at work under the lock, is served as `q`, and will leave a desk. -/
structure Works (S : Source σ ε) (kind : LockKind) (L : Layout) (strict : Bool)
    (q : Served σ ε) (D : Desk σ) (M : Machine σ ε) (j : Nat) : Prop where
  performs : ∃ r p n, M.threads[j]? = some (some r) ∧ Performs S kind r M.memory M.source p ∧
    p.ending = q.ending ∧ p.source = D.source ∧
    M.answers j ++ p.acts.filterMap Act.answer? = q.answers ∧ Holds L strict n p.memory D
  endings : M.endings j = []

/-- A call that was served as `q` and has left the lock, and has ended or is about to. -/
structure Settled (q : Served σ ε) (M : Machine σ ε) (j : Nat) : Prop where
  answers : M.answers j = q.answers
  left : (M.threads[j]? = some none ∧ M.endings j = [q.ending]) ∨
    ∃ r, M.threads[j]? = some (some r) ∧ Tail q.ending r ∧ M.endings j = []

section

variable {S : Source σ ε} {kind : LockKind} {L : Layout} {strict : Bool} {q : Served σ ε}
  {D : Desk σ} {M M' : Machine σ ε} {l : Nat}

theorem Waits.alike (h : Waits S kind L strict M l) (same : M.Alike M' l) :
    Waits S kind L strict M' l where
  wants := same.threads ▸ h.wants
  answers := same.answers.trans h.answers
  endings := same.endings.trans h.endings

theorem Works.alike (h : Works S kind L strict q D M l) (same : M.Alike M' l)
    (memory : M'.memory = M.memory) (source : M'.source = M.source) :
    Works S kind L strict q D M' l where
  performs := by
    rw [same.threads, same.answers, memory, source]
    exact h.performs
  endings := same.endings.trans h.endings

theorem Settled.alike (h : Settled q M l) (same : M.Alike M' l) : Settled q M' l where
  answers := same.answers.trans h.answers
  left := by
    rw [same.threads, same.endings]
    exact h.left

end

/-! ## Turns -/

/-- What a move of a thread can be while calls take turns: it comes to the lock and is
refused or let in, it goes on under the lock, it leaves the lock, or it reports or ends
after it has left. -/
inductive Turn (A : Arena σ ε) (M : Machine σ ε) (j : Nat) : Machine σ ε → Prop where
  | refused {w : Routine ε} (wants : M.threads[j]? = some (some (.acquire w)))
      (new : j ∉ M.entries) (free : M.holder = none) (spoiled : M.memory.poisoned = true) :
      Turn A M j (M.proceed j .refused (.finish (.failed .poisoned)))
  | acquired {w : Routine ε} (wants : M.threads[j]? = some (some (.acquire w)))
      (new : j ∉ M.entries) (free : M.holder = none) (sound : M.memory.poisoned = false) :
      Turn A M j ({ M with holder := some j }.proceed j .acquired w)
  | works {r : Routine ε} {p : Stepped σ ε} (busy : M.threads[j]? = some (some r))
      (held : M.holder = some j) (step : r.step A.source A.kind M.memory M.source = some p)
      (entry : p.act.isEntry = false) :
      Turn A M j ({ M with memory := p.memory, source := p.source }.proceed j p.act p.rest)
  | leaves {crashed : Bool} {rest : Routine ε}
      (busy : M.threads[j]? = some (some (.release crashed rest))) (held : M.holder = some j)
      (tail : ∃ e, Tail e rest) :
      Turn A M j ({ M with memory := M.memory.released A.kind crashed, holder := none }.proceed j
        (.released crashed) rest)
  | reports {n : Note} {rest : Routine ε} (busy : M.threads[j]? = some (some (.note n rest)))
      (old : j ∈ M.entries) (free : M.holder ≠ some j) : Turn A M j (M.proceed j (.noted n) rest)
  | ends {e : Ending ε} (busy : M.threads[j]? = some (some (.finish e))) (old : j ∈ M.entries)
      (free : M.holder ≠ some j) :
      Turn A M j { M with threads := M.threads.set j none, log := (j, .ended e) :: M.log }

/-- Calls of some `callers` take turns, with the thread `i` as the first: the one that came
to the lock as number `t` is served at the desk `D t`. -/
structure Turns (A : Arena σ ε) (L : Layout) (strict : Bool) (D : Nat → Desk σ)
    (callers : List Nat) (i : Nat) (M : Machine σ ε) : Prop where
  first : M.entries.head? = some i
  nodup : M.entries.Nodup
  called : ∀ j ∈ M.entries, j ∈ callers
  calls {j : Nat} {r : Routine ε} (busy : M.threads[j]? = some (some r)) : j ∈ callers
  waits {j : Nat} (caller : j ∈ callers) (new : j ∉ M.entries) :
    Waits A.source A.kind L strict M j
  settled {t j : Nat} (entry : M.entries[t]? = some j) (free : M.holder ≠ some j) :
    Settled ((D t).serve A.source L.size) M j
  held {j : Nat} (holder : M.holder = some j) : ∃ t, M.entries.length = t + 1 ∧
    M.entries[t]? = some j ∧
      Works A.source A.kind L strict ((D t).serve A.source L.size) (D (t + 1)) M j
  free (holder : M.holder = none) : M.source = (D M.entries.length).source ∧
    ∃ n, Holds L strict n M.memory (D M.entries.length)

/-- The desks of calls in a row, each as the call before has left it. The first `n` calls
come to an end. -/
structure Row (A : Arena σ ε) (L : Layout) (n : Nat) (D : Nat → Desk σ) : Prop where
  next (t : Nat) : D (t + 1) = (D t).after A.source (A.kind == .poisoning) L.size
  settles {t : Nat} (lt : t < n) : ((D t).serve A.source L.size).ending ≠ .unsettled

/-- Once the desk is closed, it stays so. -/
theorem Row.closed {A : Arena σ ε} {L : Layout} {n t : Nat} {D : Nat → Desk σ} (row : Row A L n D)
    (h : (D t).closed = true) (more : Nat) : D (t + more) = D t := by
  induction more with
  | zero => rfl
  | succ more ih => rw [← Nat.add_assoc, row.next, ih, Desk.after_of_closed h]

namespace Turns

variable {A : Arena σ ε} {L : Layout} {strict : Bool} {D : Nat → Desk σ} {callers : List Nat}
  {base i j : Nat} {M M' : Machine σ ε} {r : Routine ε}

/-- **What a move can be.** -/
theorem turn (h : Turns A L strict D callers i M) (kept : Kept L strict base M)
    (busy : M.threads[j]? = some (some r)) (hact : A.act M j r = some M') : Turn A M j M' := by
  by_cases old : j ∈ M.entries
  · by_cases held : M.holder = some j
    · -- a call that holds the lock is inside, where none ends and none wants the lock
      obtain ⟨st, horderly, hst⟩ := kept.orderly busy
      cases st with
      | outside seen => exact absurd held hst.1
      | past crashed => exact absurd held hst
      | inside hi clean =>
        obtain ⟨e, rfl, -⟩ | ⟨p, hp, -, rfl⟩ := Arena.act_cases hact
        · cases horderly
        cases horderly with
        | release useful rest =>
          obtain rfl := Option.some.inj hp
          exact .leaves busy held rest.exists_tail
        | _ =>
          obtain rfl := Option.some.inj hp
          exact .works busy held rfl rfl
    · obtain ⟨t, ht⟩ := List.mem_iff_getElem?.mp old
      rcases (h.settled ht held).left with ⟨hnone, -⟩ | ⟨r', hr', htail, -⟩
      · exact absurd (hnone.symm.trans busy) nofun
      · obtain rfl := Option.some.inj (Option.some.inj (hr'.symm.trans busy))
        cases htail with
        | finish =>
          obtain rfl := Option.some.inj hact
          exact .ends busy old held
        | note _ =>
          obtain rfl := Option.some.inj hact
          exact .reports busy old held
  · obtain ⟨w, hw, -⟩ := (h.waits (h.calls busy) old).wants
    obtain rfl := Option.some.inj (Option.some.inj (busy.symm.trans hw))
    obtain ⟨e, he, -⟩ | ⟨p, hp, hfree, rfl⟩ := Arena.act_cases hact
    · cases he
    by_cases hm : M.memory.poisoned = true
    · obtain rfl := Option.some.inj ((if_pos hm).symm.trans hp)
      exact .refused busy old (hfree rfl) hm
    · obtain rfl := Option.some.inj ((if_neg hm).symm.trans hp)
      exact .acquired busy old (hfree rfl) (Bool.eq_false_iff.mpr hm)

/-- The entries after a thread has come to the lock. -/
theorem entries_concat {t l : Nat} (h : (M.entries ++ [j])[t]? = some l) :
    M.entries[t]? = some l ∨ t = M.entries.length ∧ l = j := by
  rcases Nat.lt_trichotomy t M.entries.length with hlt | rfl | hgt
  · rw [List.getElem?_append_left hlt] at h
    exact .inl h
  · rw [List.getElem?_concat_length] at h
    exact .inr ⟨rfl, (Option.some.inj h).symm⟩
  · rw [List.getElem?_eq_none (by simp; omega)] at h
    cases h

/-- A thread that makes a call is a caller, also after a caller has moved. -/
theorem calls_set (h : Turns A L strict D callers i M) (caller : j ∈ callers)
    {o : Option (Routine ε)} {l : Nat} (hl : (M.threads.set j o)[l]? = some (some r)) :
    l ∈ callers := by
  by_cases hjl : j = l
  · exact hjl ▸ caller
  · rw [List.getElem?_set_ne hjl] at hl
    exact h.calls hl

/-- Some caller is still to come to the lock. -/
theorem length_lt (h : Turns A L strict D callers i M) (caller : j ∈ callers)
    (new : j ∉ M.entries) : M.entries.length < callers.length := by
  have hnodup : (j :: M.entries).Nodup := List.nodup_cons.mpr ⟨new, h.nodup⟩
  have hsub : j :: M.entries ⊆ callers := List.cons_subset.mpr ⟨caller, h.called⟩
  exact (hnodup.subperm hsub).length_le

section Moves

variable (h : Turns A L strict D callers i M)

include h

/-- A waiting thread has come to the lock. -/
theorem enter (busy : M.threads[j]? = some (some r)) (new : j ∉ M.entries)
    (free : M.holder = none) {o : Option (Routine ε)} (threads : M'.threads = M.threads.set j o)
    (entries : M'.entries = M.entries ++ [j]) (alike : ∀ l ≠ j, M.Alike M' l)
    (own : M'.holder ≠ some j → Settled ((D M.entries.length).serve A.source L.size) M' j)
    (held : ∀ l, M'.holder = some l → l = j ∧ Works A.source A.kind L strict
      ((D M.entries.length).serve A.source L.size) (D (M.entries.length + 1)) M' j)
    (freed : M'.holder = none → M'.source = (D (M.entries.length + 1)).source ∧
      ∃ n, Holds L strict n M'.memory (D (M.entries.length + 1))) :
    Turns A L strict D callers i M' where
  first := by
    rw [entries, List.head?_append, h.first]
    rfl
  nodup := by
    rw [entries]
    refine List.nodup_append.mpr ⟨h.nodup, List.pairwise_singleton _ j, fun l hl l' hl' hsame => ?_⟩
    rw [hsame, List.mem_singleton.mp hl'] at hl
    exact new hl
  called := by
    rw [entries, List.forall_mem_append]
    exact ⟨h.called, fun l hl => List.mem_singleton.mp hl ▸ h.calls busy⟩
  calls hl := h.calls_set (h.calls busy) (threads ▸ hl)
  waits {l} hl hnew := by
    rw [entries, List.mem_append, not_or, List.mem_singleton] at hnew
    exact (h.waits hl hnew.1).alike (alike l hnew.2)
  settled {t l} entry hl := by
    rw [entries] at entry
    rcases entries_concat entry with hold | ⟨rfl, rfl⟩
    · have hne : l ≠ j := fun hlj => new (hlj ▸ List.mem_of_getElem? hold)
      exact (h.settled hold (by simp [free])).alike (alike l hne)
    · exact own hl
  held hl := by
    obtain ⟨rfl, hworks⟩ := held _ hl
    exact ⟨M.entries.length, by rw [entries, List.length_append, List.length_singleton],
      by rw [entries, List.getElem?_concat_length], hworks⟩
  free hnone := by
    rw [entries, List.length_append, List.length_singleton]
    exact freed hnone

/-- A thread that has come to the lock before has moved on. -/
theorem go (old : j ∈ M.entries) {o : Option (Routine ε)} (threads : M'.threads = M.threads.set j o)
    (entries : M'.entries = M.entries) (alike : ∀ l ≠ j, M.Alike M' l)
    (own : ∀ t, M.entries[t]? = some j → M'.holder ≠ some j →
      Settled ((D t).serve A.source L.size) M' j)
    (others : ∀ l ≠ j, M.holder = some l → M'.holder = some l)
    (held : ∀ l, M'.holder = some l → ∃ t, M.entries.length = t + 1 ∧ M.entries[t]? = some l ∧
      Works A.source A.kind L strict ((D t).serve A.source L.size) (D (t + 1)) M' l)
    (freed : M'.holder = none → M'.source = (D M.entries.length).source ∧
      ∃ n, Holds L strict n M'.memory (D M.entries.length)) :
    Turns A L strict D callers i M' where
  first := entries ▸ h.first
  nodup := entries ▸ h.nodup
  called := entries ▸ h.called
  calls hl := h.calls_set (h.called j old) (threads ▸ hl)
  waits {l} hl hnew := by
    rw [entries] at hnew
    exact (h.waits hl hnew).alike (alike l fun hlj => hnew (hlj ▸ old))
  settled {t l} entry hl := by
    rw [entries] at entry
    by_cases hlj : l = j
    · subst hlj
      exact own t entry hl
    · exact (h.settled entry fun hheld => hl (others l hlj hheld)).alike (alike l hlj)
  held hl := by
    rw [entries]
    exact held _ hl
  free hnone := by
    rw [entries]
    exact freed hnone

/-- A closed desk refuses. -/
theorem refused {w : Routine ε} (row : Row A L callers.length D)
    (wants : M.threads[j]? = some (some (.acquire w))) (new : j ∉ M.entries)
    (free : M.holder = none) (spoiled : M.memory.poisoned = true) :
    Turns A L strict D callers i (M.proceed j .refused (.finish (.failed .poisoned))) := by
  obtain ⟨hsource, n, hholds⟩ := h.free free
  have hclosed : (D M.entries.length).closed = true := hholds.poisoned.symm.trans spoiled
  have hwaits := h.waits (h.calls wants) new
  refine h.enter wants new free rfl (Machine.entries_did (M := M) (a := .refused) rfl)
    (fun l hl => .of_did rfl rfl hl) (fun _ => ?_) (fun l hl => ?_) fun _ => ?_
  · rw [Desk.serve_of_closed hclosed]
    refine ⟨?_, .inr ⟨_, List.getElem?_set_self (List.getElem?_eq_some_iff.mp wants).1, .finish,
      (Machine.endings_did (M := M) rfl).trans hwaits.endings⟩⟩
    rw [Machine.answers_did (M := M) rfl, hwaits.answers, if_pos rfl]
    rfl
  · exact absurd (free.symm.trans hl) nofun
  · rw [row.next, Desk.after_of_closed hclosed]
    exact ⟨hsource, n, hholds⟩

/-- An open desk lets a call in. From here on it is performed as if nothing disturbed it. -/
theorem acquired {w : Routine ε} (row : Row A L callers.length D) (kept : Kept L strict base M)
    (room : base + (Ledger.ofLog L M.log).bumps + 1 < 2 ^ 63)
    (wants : M.threads[j]? = some (some (.acquire w))) (new : j ∉ M.entries)
    (free : M.holder = none) (sound : M.memory.poisoned = false) :
    Turns A L strict D callers i ({ M with holder := some j }.proceed j .acquired w) := by
  obtain ⟨hsource, n, hholds⟩ := h.free free
  have hopen : (D M.entries.length).closed = false := hholds.poisoned.symm.trans sound
  have hcaller := h.calls wants
  have hwaits := h.waits hcaller new
  obtain ⟨w', hw', hsection⟩ := hwaits.wants
  obtain rfl := Routine.acquire.inj (Option.some.inj (Option.some.inj (wants.symm.trans hw')))
  have hattends := hsection.attends (hholds.of_ranged kept.ranged) hopen (L.reach_lt strict room)
  have hsettles := row.settles (h.length_lt hcaller new)
  rw [← hattends.ending, ← hsource] at hsettles
  rw [← hsource] at hattends
  have hnext := row.next M.entries.length
  refine h.enter wants new free rfl (Machine.entries_did (M := M) (a := .acquired) rfl)
    (fun l hl => .of_did rfl rfl hl) (fun hne => absurd rfl hne) (fun l hl => ?_) nofun
  obtain rfl := Option.some.inj hl
  refine ⟨rfl, ⟨w, _, _, List.getElem?_set_self (List.getElem?_eq_some_iff.mp wants).1,
    .of_run w _ _ hsettles, hattends.ending, hnext ▸ hattends.source, ?_, hnext ▸ hattends.holds⟩,
    (Machine.endings_did (M := M) rfl).trans hwaits.endings⟩
  rw [Machine.answers_did (M := M) rfl, hwaits.answers, if_pos rfl]
  exact hattends.answers

/-- The call at work goes on. -/
theorem worked {p : Stepped σ ε} (busy : M.threads[j]? = some (some r)) (held : M.holder = some j)
    (step : r.step A.source A.kind M.memory M.source = some p) (entry : p.act.isEntry = false) :
    Turns A L strict D callers i
      ({ M with memory := p.memory, source := p.source }.proceed j p.act p.rest) := by
  obtain ⟨t, hlength, hentry, ⟨r', q, n, hbusy, hperforms, hending, hsource, hanswers, hholds⟩,
    hendings⟩ := h.held held
  obtain rfl := Option.some.inj (Option.some.inj (hbusy.symm.trans busy))
  obtain ⟨q', hq', rfl⟩ := hperforms.of_step step
  refine h.go (List.mem_of_getElem? hentry) rfl ?_ (fun l hl => .of_did rfl rfl hl)
    (fun t _ hne => absurd held hne) (fun l _ hl => hl) (fun l hl => ?_) fun hnone => ?_
  · rw [Machine.entries_did (M := M) rfl, entry]
    exact List.append_nil _
  · obtain rfl := Option.some.inj (held.symm.trans hl)
    have hset := List.getElem?_set_self (a := some p.rest) (List.getElem?_eq_some_iff.mp busy).1
    refine ⟨t, hlength, hentry, ⟨_, q', n, hset, hq', hending, hsource, ?_, hholds⟩,
      (Machine.endings_did (M := M) rfl).trans hendings⟩
    rw [Machine.answers_did (M := M) rfl, if_pos rfl, ← hanswers, Performed.prepend]
    cases ha : p.act.answer? <;> simp [ha]
  · exact absurd (held.symm.trans hnone) (Option.some_ne_none j)

/-- The call at work leaves the lock, with the desk as it should be. -/
theorem left {crashed : Bool} {rest : Routine ε}
    (busy : M.threads[j]? = some (some (.release crashed rest))) (held : M.holder = some j)
    (tail : ∃ e, Tail e rest) :
    Turns A L strict D callers i
      ({ M with memory := M.memory.released A.kind crashed, holder := none }.proceed j
        (.released crashed) rest) := by
  obtain ⟨t, hlength, hentry, ⟨r', q, n, hbusy, hperforms, hending, hsource, hanswers, hholds⟩,
    hendings⟩ := h.held held
  obtain rfl := Option.some.inj (Option.some.inj (hbusy.symm.trans busy))
  obtain ⟨q', hq', rfl⟩ := hperforms.of_step rfl
  obtain ⟨e, htail⟩ := tail
  obtain ⟨rfl, hmemory, hsource', hnone⟩ := Performs.of_tail htail hq'
  refine h.go (List.mem_of_getElem? hentry) rfl
    ((Machine.entries_did (M := M) rfl).trans (List.append_nil _)) (fun l hl => .of_did rfl rfl hl)
    (fun t' hentry' _ => ?_) (fun l hl hheld => ?_) nofun fun _ => ?_
  · have hlt := (List.getElem?_eq_some_iff.mp hentry').1
    obtain rfl : t' = t := (List.getElem?_inj hlt h.nodup).mp (hentry'.trans hentry.symm)
    have hall : M.answers j ++ q'.acts.filterMap Act.answer? = _ := hanswers
    rw [hnone] at hall
    refine ⟨?_, .inr ⟨rest, List.getElem?_set_self (List.getElem?_eq_some_iff.mp busy).1, ?_,
      (Machine.endings_did (M := M) rfl).trans hendings⟩⟩
    · rw [Machine.answers_did (M := M) rfl, if_pos rfl]
      exact hall
    · rw [← hending]
      exact htail
  · exact absurd (Option.some.inj (hheld.symm.trans held)) hl
  · rw [hlength]
    have hleft : Holds L strict n q'.memory (D (t + 1)) := hholds
    rw [hmemory] at hleft
    exact ⟨hsource'.symm.trans hsource, n, hleft⟩

/-- A call that has left the lock reports. -/
theorem reported {note : Note} {rest : Routine ε}
    (busy : M.threads[j]? = some (some (.note note rest))) (old : j ∈ M.entries)
    (free : M.holder ≠ some j) : Turns A L strict D callers i (M.proceed j (.noted note) rest) := by
  have halike : ∀ l ≠ j, M.Alike (M.proceed j (.noted note) rest) l :=
    fun l hl => .of_did rfl rfl hl
  refine h.go old rfl ((Machine.entries_did (M := M) rfl).trans (List.append_nil _)) halike
    (fun t hentry _ => ?_) (fun l _ hl => hl) (fun l hl => ?_) h.free
  · obtain ⟨hanswers, hover⟩ := h.settled hentry free
    rcases hover with ⟨hnone, -⟩ | ⟨r, hr, htail, hendings⟩
    · exact absurd (hnone.symm.trans busy) nofun
    · obtain rfl := Option.some.inj (Option.some.inj (hr.symm.trans busy))
      cases htail with
      | note htail =>
        refine ⟨?_, .inr ⟨rest, List.getElem?_set_self (List.getElem?_eq_some_iff.mp busy).1, htail,
          (Machine.endings_did (M := M) rfl).trans hendings⟩⟩
        rw [Machine.answers_did (M := M) rfl, if_pos rfl]
        exact (List.append_nil _).trans hanswers
  · obtain ⟨t, hlength, hentry, hworks⟩ := h.held hl
    have hne : l ≠ j := fun hlj => free (hlj ▸ hl)
    exact ⟨t, hlength, hentry, hworks.alike (halike l hne) rfl rfl⟩

/-- A call that has left the lock ends. -/
theorem ended {e : Ending ε} (busy : M.threads[j]? = some (some (.finish e))) (old : j ∈ M.entries)
    (free : M.holder ≠ some j) :
    Turns A L strict D callers i
      { M with threads := M.threads.set j none, log := (j, .ended e) :: M.log } := by
  have halike : ∀ l ≠ j, M.Alike
      { M with threads := M.threads.set j none, log := (j, .ended e) :: M.log } l :=
    fun l hl => .of_ended rfl rfl hl
  refine h.go old rfl (Machine.entries_ended (M := M) rfl) halike
    (fun t hentry _ => ?_) (fun l _ hl => hl) (fun l hl => ?_) h.free
  · obtain ⟨hanswers, hover⟩ := h.settled hentry free
    rcases hover with ⟨hnone, -⟩ | ⟨r, hr, htail, hendings⟩
    · exact absurd (hnone.symm.trans busy) nofun
    · obtain rfl := Option.some.inj (Option.some.inj (hr.symm.trans busy))
      cases htail
      refine ⟨(Machine.answers_ended (M := M) rfl).trans hanswers,
        .inl ⟨List.getElem?_set_self (List.getElem?_eq_some_iff.mp busy).1, ?_⟩⟩
      rw [Machine.endings_ended (M := M) rfl, if_pos rfl, hendings]
  · obtain ⟨t, hlength, hentry, hworks⟩ := h.held hl
    have hne : l ≠ j := fun hlj => free (hlj ▸ hl)
    exact ⟨t, hlength, hentry, hworks.alike (halike l hne) rfl rfl⟩

/-- **Every move leaves the calls at their turns.** -/
theorem move (row : Row A L callers.length D) (kept : Kept L strict base M)
    (room : base + (Ledger.ofLog L M.log).bumps + 1 < 2 ^ 63) (turn : Turn A M j M') :
    Turns A L strict D callers i M' := by
  cases turn with
  | refused wants new free spoiled => exact h.refused row wants new free spoiled
  | acquired wants new free sound => exact h.acquired row kept room wants new free sound
  | works busy held step entry => exact h.worked busy held step entry
  | leaves busy held tail => exact h.left busy held tail
  | reports busy old free => exact h.reported busy old free
  | ends busy old free => exact h.ended busy old free

end Moves

/-- The first call is the first entry. -/
theorem first_mem (h : Turns A L strict D callers i M) : i ∈ M.entries := by
  obtain ⟨rest, hrest⟩ := List.head?_eq_some_iff.mp h.first
  rw [hrest]
  exact List.mem_cons_self

/-- While the first call has the lock, it is the only entry. -/
theorem entries_of_first (h : Turns A L strict D callers i M) (held : M.holder = some i) :
    M.entries = [i] := by
  obtain ⟨rest, hrest⟩ := List.head?_eq_some_iff.mp h.first
  obtain ⟨t, hlength, hentry, -⟩ := h.held held
  have hzero : M.entries[0]? = some i := by rw [hrest]; rfl
  obtain rfl : 0 = t := (List.getElem?_inj (by omega) h.nodup).mp (hzero.trans hentry.symm)
  rw [hrest, List.length_cons, Nat.add_right_cancel_iff, List.length_eq_zero_iff] at hlength
  rw [hrest, hlength]

end Turns

/-! ## The first call -/

/-- The first call has the lock, and nobody else has moved since some past; or it has left
the lock before anybody else moved, and only reports and ends from then on. -/
def Exits (i : Nat) (past : List (Nat × Event ε)) (M : Machine σ ε) : Prop :=
  (M.holder = some i ∧ ∃ own, M.log = own ++ past ∧ ∀ x ∈ own, x.1 = i) ∨
    (M.holder ≠ some i ∧ ∃ crashed later own,
      M.log = later ++ (i, .did (.released crashed)) :: (own ++ past) ∧ (∀ x ∈ own, x.1 = i) ∧
      ∀ x ∈ later, x.1 = i → (∃ n, x.2 = .did (.noted n)) ∨ ∃ e, x.2 = .ended e)

namespace Exits

variable {A : Arena σ ε} {L : Layout} {strict : Bool} {D : Nat → Desk σ} {callers : List Nat}
  {base i j : Nat} {M M' : Machine σ ε} {past : List (Nat × Event ε)}

/-- The first call goes on under the lock. -/
theorem own (h : Exits i past M) (held : M.holder = some i) {e : Event ε}
    (log : M'.log = (i, e) :: M.log) (holder : M'.holder = M.holder) : Exits i past M' := by
  rcases h with ⟨-, own, hlog, hown⟩ | ⟨hne, -⟩
  · refine .inl ⟨holder.trans held, (i, e) :: own, by rw [log, hlog]; rfl, ?_⟩
    exact List.forall_mem_cons.mpr ⟨rfl, hown⟩
  · exact absurd held hne

/-- The first call has left the lock, and somebody moves. -/
theorem later (h : Exits i past M) (free : M.holder ≠ some i) {e : Event ε}
    (log : M'.log = (j, e) :: M.log) (holder : M'.holder ≠ some i)
    (own : j = i → (∃ n, e = .did (.noted n)) ∨ ∃ e', e = .ended e') : Exits i past M' := by
  rcases h with ⟨hheld, -⟩ | ⟨-, crashed, later, before, hlog, hbefore, hlater⟩
  · exact absurd hheld free
  · refine .inr ⟨holder, crashed, (j, e) :: later, before, by rw [log, hlog]; rfl, hbefore, ?_⟩
    exact List.forall_mem_cons.mpr ⟨own, hlater⟩

/-- **The others stand still until the first call has left the lock.** -/
theorem move (h : Exits i past M) (turns : Turns A L strict D callers i M) (turn : Turn A M j M') :
    Exits i past M' := by
  cases turn with
  | refused wants new free spoiled =>
    refine h.later (by simp [free]) rfl (by simp [Machine.proceed, free]) fun hj => ?_
    exact absurd (hj ▸ turns.first_mem) new
  | acquired wants new free sound =>
    have hj : j ≠ i := fun hj => new (hj ▸ turns.first_mem)
    exact h.later (by simp [free]) rfl (by simpa [Machine.proceed] using hj) fun h => absurd h hj
  | works busy held step entry =>
    by_cases hj : j = i
    · subst hj
      exact h.own held rfl rfl
    · have hfree : M.holder ≠ some i := by simpa [held] using hj
      exact h.later hfree rfl hfree fun h => absurd h hj
  | @leaves crashed rest busy held tail =>
    by_cases hj : j = i
    · subst hj
      rcases h with ⟨-, own, hlog, hown⟩ | ⟨hne, -⟩
      · refine .inr ⟨nofun, crashed, [], own, ?_, hown, nofun⟩
        exact congrArg ((j, Event.did (.released crashed)) :: ·) hlog
      · exact absurd held hne
    · exact h.later (by simpa [held] using hj) rfl nofun fun h => absurd h hj
  | @reports note rest busy old free =>
    have hfree : M.holder ≠ some i := fun held => by
      rw [turns.entries_of_first held, List.mem_singleton] at old
      exact free (old ▸ held)
    exact h.later hfree rfl hfree fun _ => .inl ⟨note, rfl⟩
  | @ends e busy old free =>
    have hfree : M.holder ≠ some i := fun held => by
      rw [turns.entries_of_first held, List.mem_singleton] at old
      exact free (old ▸ held)
    exact h.later hfree rfl hfree fun _ => .inr ⟨e, rfl⟩

end Exits

/-! ## Interleavings -/

/-- **Calls that have begun take their turns** in every interleaving in which no other call
begins. -/
theorem Turns.run {A : Arena σ ε} {L : Layout} {strict : Bool} {D : Nat → Desk σ}
    {callers : List Nat} {base i : Nat} {M' : Machine σ ε} {past : List (Nat × Event ε)}
    (call : Orderly L strict (.outside false) A.call) (row : Row A L callers.length D) :
    ∀ {sched : List Nat} {M : Machine σ ε},
      A.runWhile (fun M j => M.busy j) M sched = some M' →
      base + (Ledger.ofLog L M'.log).bumps < 2 ^ 62 → Kept L strict base M →
      Turns A L strict D callers i M → Exits i past M →
      Turns A L strict D callers i M' ∧ Exits i past M'
  | [], M, hrun, _, _, h, hexits => Option.some.inj hrun ▸ ⟨h, hexits⟩
  | j :: sched, M, hrun, room, kept, h, hexits => by
    obtain ⟨hmay, M₁, hmove, hrest⟩ := Arena.runWhile_cons hrun
    obtain ⟨r, hbusy⟩ := Machine.exists_of_busy hmay
    have hgrows := Arena.bumps_runWhile L hrun
    rcases Arena.move_cases hmove with ⟨hidle, -⟩ | ⟨r', hr', hact⟩
    · exact absurd (hidle.symm.trans hbusy) nofun
    have hturn := h.turn kept hr' hact
    exact run call row hrest room (kept.move call (by omega) hmove)
      (h.move row kept (by omega) hturn) (hexits.move h hturn)

end HiLo
