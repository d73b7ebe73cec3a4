/-
HiLo.Proofs.RealTime — calls that follow one another are numbered in their order.

A call that begins after another one has returned gets a greater pair, on whatever
threads the two run and whatever overlaps them, if the hi values that the source
answers rise (`calls_in_real_time`). So identifiers rise along every thread, and once
an identifier of a block was returned, no later call goes back to an earlier block.

The point at which a call takes its place is the claim of its lo. `Coherent.rising`
has the claims in order; what is left to show is that a call claims its lo between
its beginning and its end (`Ledger.exists_issued_since`).
-/
import HiLo.Proofs.Attempts
import HiLo.Proofs.Values
import HiLo.Source.Progression
import Mathlib.Data.List.Basic

namespace HiLo

variable {σ ε : Type} {c : Check} {L : Layout}

/-! ## What a call has claimed -/

namespace Ledger

variable {i j : Nat} {g : Ledger}

/-- What was issued stays issued, and what was won stays won. -/
theorem suffix_book (L : Layout) (i : Nat) (g : Ledger) (e : Event ε) :
    g.issued <:+ (g.book L i e).issued ∧ g.wins <:+ (g.book L i e).wins := by
  have hclaim : ∀ lo, g.issued <:+ (g.claim L i lo).issued := by
    intro lo
    unfold claim
    split
    · exact List.suffix_cons _ _
    · exact List.suffix_rfl
  unfold book
  split
  · exact ⟨List.suffix_rfl, List.suffix_rfl⟩
  · exact ⟨List.suffix_rfl, List.suffix_rfl⟩
  · exact ⟨hclaim _, List.suffix_rfl⟩
  · exact ⟨hclaim _, List.suffix_rfl⟩
  · exact ⟨List.suffix_rfl, List.suffix_rfl⟩
  · exact ⟨List.suffix_rfl, List.suffix_rfl⟩
  · exact ⟨List.suffix_rfl, List.suffix_rfl⟩
  · exact ⟨List.suffix_rfl, List.suffix_cons _ _⟩
  · exact ⟨List.suffix_rfl, List.suffix_rfl⟩

theorem suffix_ofLog (L : Layout) (past : List (Nat × Event ε)) :
    ∀ news : List (Nat × Event ε),
      (ofLog L past).issued <:+ (ofLog L (news ++ past)).issued ∧
        (ofLog L past).wins <:+ (ofLog L (news ++ past)).wins
  | [] => ⟨List.suffix_rfl, List.suffix_rfl⟩
  | (i, e) :: news => by
    have hrest := suffix_ofLog L past news
    have hlast := suffix_book L i (ofLog L (news ++ past)) e
    exact ⟨hrest.1.trans hlast.1, hrest.2.trans hlast.2⟩

/-- A ticket is new, and then its key was issued with it, or it was there before, at
most without its hi. -/
theorem ticket_book {e : Event ε} {t : Ticket} (ticket : (g.book L j e).tickets i = some t)
    (inside : t.lo < L.capacity) :
    (∃ u, g.tickets i = some u ∧ u.key = t.key ∧ u.lo = t.lo) ∨
      (g.book L j e).issued = t.key :: g.issued := by
  -- whoever else acts leaves the ticket alone
  have hother : ∀ {o : Option Ticket}, i ≠ j → Function.update g.tickets j o i = some t →
      ∃ u, g.tickets i = some u ∧ u.key = t.key ∧ u.lo = t.lo := by
    intro o hij ho
    rw [Function.update_of_ne hij] at ho
    exact ⟨t, ho, rfl, rfl⟩
  have hforget : Function.update g.tickets j none i = some t →
      ∃ u, g.tickets i = some u ∧ u.key = t.key ∧ u.lo = t.lo := by
    intro ho
    by_cases hij : i = j
    · subst hij
      simp at ho
    · exact hother hij ho
  have hclaim : ∀ lo, (g.claim L j lo).tickets i = some t →
      (∃ u, g.tickets i = some u ∧ u.key = t.key ∧ u.lo = t.lo) ∨
        (g.claim L j lo).issued = t.key :: g.issued := by
    intro lo ho
    by_cases hij : i = j
    · subst hij
      simp only [claim, Function.update_self, Option.some.injEq] at ho
      subst ho
      exact .inr (if_pos inside)
    · exact .inl (hother hij ho)
  unfold book at ticket ⊢
  split at ticket
  · exact .inl (hforget ticket)
  · next hi =>
    left
    by_cases hij : i = j
    · subst hij
      simp only [adopt, Function.update_self, Option.map_eq_some_iff] at ticket
      obtain ⟨u, hu, rfl⟩ := ticket
      refine ⟨u, hu, ?_⟩
      unfold Ticket.publish
      split
      · exact ⟨rfl, rfl⟩
      · exact ⟨rfl, rfl⟩
    · exact hother hij ticket
  · exact hclaim _ ticket
  · exact hclaim _ ticket
  · exact .inl ⟨t, ticket, rfl, rfl⟩
  · exact .inl ⟨t, ticket, rfl, rfl⟩
  · exact .inl ⟨t, ticket, rfl, rfl⟩
  · exact .inl (hforget ticket)
  · exact .inl (hforget ticket)

/-- **A claim belongs to its call.** Where a thread had no ticket, the one that it has
later was issued since. -/
theorem exists_issued_since {past : List (Nat × Event ε)}
    (hnone : (ofLog L past).tickets i = none) :
    ∀ {news : List (Nat × Event ε)} {t : Ticket},
      (ofLog L (news ++ past)).tickets i = some t → t.lo < L.capacity →
      ∃ since, (ofLog L (news ++ past)).issued = since ++ (ofLog L past).issued ∧
        t.key ∈ since
  | [], t, ticket, _ => by
    rw [List.nil_append, hnone] at ticket
    cases ticket
  | (j, e) :: news, t, ticket, inside => by
    rcases ticket_book ticket inside with ⟨u, hu, hkey, hlo⟩ | hnew
    · obtain ⟨since, hsince, hmem⟩ := exists_issued_since hnone hu (hlo ▸ inside)
      obtain ⟨more, hmore⟩ := (suffix_book L j (ofLog L (news ++ past)) e).1
      refine ⟨more ++ since, ?_, List.mem_append_right more (hkey ▸ hmem)⟩
      rw [List.append_assoc, ← hsince]
      exact hmore.symm
    · obtain ⟨since, hsince⟩ := (suffix_ofLog L past news).1
      refine ⟨t.key :: since, ?_, List.mem_cons_self⟩
      have hcons : t.key :: since ++ (ofLog L past).issued
          = t.key :: (ofLog L (news ++ past)).issued := congrArg (t.key :: ·) hsince
      exact hnew.trans hcons.symm

/-- The key of a ticket inside the block was issued. -/
theorem key_mem_issued {log : List (Nat × Event ε)} {t : Ticket}
    (ticket : (ofLog L log).tickets i = some t) (inside : t.lo < L.capacity) :
    t.key ∈ (ofLog L log).issued := by
  have hblank : (ofLog L ([] : List (Nat × Event ε))).tickets i = none := rfl
  rw [← List.append_nil log] at ticket ⊢
  obtain ⟨since, hsince, hmem⟩ := exists_issued_since hblank ticket inside
  rw [hsince]
  exact List.mem_append_left _ hmem

end Ledger

/-! ## Earlier and later calls -/

/-- The order of pairs: by hi, and inside a block by lo. -/
def Below (p q : Int64 × Int64) : Prop := p.1 < q.1 ∨ p.1 = q.1 ∧ p.2 < q.2

/-- A call returned the pair `p`, and a call that began only after that returned the
pair `q`: so the log has it, latest first. -/
def Machine.Precedes (M : Machine σ ε) (p q : Int64 × Int64) : Prop :=
  ∃ i j, [(j, .ended (.claimed q.1 q.2)), (j, .began), (i, .ended (.claimed p.1 p.2))].Sublist
    M.log

/-- A list that has two elements in their order, split at both. -/
theorem exists_split_of_sublist {α : Type} {a b : α} {t l : List α} (h : (a :: b :: t).Sublist l) :
    ∃ x y z, l = x ++ a :: (y ++ b :: z) ∧ t.Sublist z := by
  obtain ⟨front, back, rfl, ha, hback⟩ := List.cons_sublist_iff.mp h
  obtain ⟨middle, rest, rfl, hb, ht⟩ := List.cons_sublist_iff.mp hback
  obtain ⟨x, y, rfl⟩ := List.append_of_mem ha
  obtain ⟨y', z, rfl⟩ := List.append_of_mem hb
  exact ⟨x, y ++ y', z ++ rest, by simp, ht.trans (List.sublist_append_right z rest)⟩

/-- Only the end of a call of this thread counts among its endings. -/
theorem Machine.of_ending {i : Nat} {a : Nat × Event ε} {e : Ending ε}
    (h : (match a with
      | (j, .ended e) => if j = i then some e else none
      | _ => none) = some e) : a = (i, .ended e) := by
  split at h
  · split at h
    · next hj =>
      obtain rfl := Option.some.inj h
      rw [hj]
    · cases h
  · cases h

/-- The identifiers that a thread got, latest first. -/
def Machine.ids (M : Machine σ ε) (L : Layout) (i : Nat) : List Int64 :=
  (M.endings i).filterMap fun e => (e.outcome L).id?

theorem Machine.mem_pairs {M : Machine σ ε} {i : Nat} {p : Int64 × Int64}
    (h : (i, .ended (.claimed p.1 p.2)) ∈ M.log) : p ∈ M.pairs :=
  List.mem_filterMap.mpr ⟨_, h, rfl⟩

namespace Coherent

variable {M : Machine σ ε} {i j : Nat} {p q : Int64 × Int64}

/-- Every call that returned a pair is among the wins. -/
theorem exists_win (h : Coherent c L (M.shared L)) {later before : List (Nat × Event ε)}
    (hlog : M.log = later ++ (i, .ended (.claimed p.1 p.2)) :: before) :
    ∃ b, (Ledger.ofLog L before).tickets i = some ⟨b, p.1, p.2⟩ ∧
      (Ledger.ofLog L M.log).adopted[b]? = some p.1 ∧ 0 ≤ p.2 ∧ p.2 < L.capacity := by
  obtain ⟨-, hwins⟩ := Ledger.suffix_ofLog L ((i, .ended (.claimed p.1 p.2)) :: before) later
  rw [← hlog] at hwins
  exact h.right _ (hwins.subset List.mem_cons_self)

/-- A pair is claimed after all pairs that were returned before its thread last had
no ticket. Its hi comes later in the answers of the source, or its lo is greater. -/
theorem ordered (h : Coherent c L (M.shared L)) {R : Int64 → Int64 → Prop}
    (hR : (Ledger.ofLog L M.log).usable.Pairwise R) {later during before : List (Nat × Event ε)}
    (hlog : M.log = later ++ (j, .ended (.claimed q.1 q.2)) :: (during ++ before))
    (hnone : (Ledger.ofLog L before).tickets j = none)
    (hp : (i, .ended (.claimed p.1 p.2)) ∈ before) : R p.1 q.1 ∨ p.1 = q.1 ∧ p.2 < q.2 := by
  obtain ⟨newer, older, rfl⟩ := List.append_of_mem hp
  have hlog' : M.log = (later ++ (j, .ended (.claimed q.1 q.2)) :: (during ++ newer))
      ++ (i, .ended (.claimed p.1 p.2)) :: older := by simp [hlog]
  obtain ⟨b, hticket, hadopted, -, hinside⟩ := h.exists_win hlog'
  obtain ⟨b', hticket', hadopted', -, hinside'⟩ := h.exists_win hlog
  -- the earlier claim was issued before, the later one since
  obtain ⟨since, hsince, hnew⟩ := Ledger.exists_issued_since hnone hticket' hinside'
  have hold : (b, p.2) ∈
      (Ledger.ofLog L (newer ++ (i, .ended (.claimed p.1 p.2)) :: older)).issued := by
    have hgrown := (Ledger.suffix_ofLog L older (newer ++ [(i, .ended (.claimed p.1 p.2))])).1
    rw [List.append_assoc, List.singleton_append] at hgrown
    exact hgrown.subset (Ledger.key_mem_issued hticket hinside)
  have hlater : Later (b', q.2) (b, p.2) := by
    have hgrown := (Ledger.suffix_ofLog L
      (during ++ (newer ++ (i, .ended (.claimed p.1 p.2)) :: older))
      (later ++ [(j, .ended (.claimed q.1 q.2))])).1
    rw [List.append_assoc, List.singleton_append, ← hlog, hsince] at hgrown
    exact (List.pairwise_append.mp (h.rising.sublist hgrown.sublist)).2.2 _ hnew _ hold
  have hadoptedR : (Ledger.ofLog L M.log).adopted.Pairwise R := hR.sublist h.drawn.sublist
  obtain ⟨hlt, hget⟩ := List.getElem?_eq_some_iff.mp hadopted
  obtain ⟨hlt', hget'⟩ := List.getElem?_eq_some_iff.mp hadopted'
  rcases hlater with hblock | ⟨hblock, hlo⟩
  · have hrel := List.pairwise_iff_getElem.mp hadoptedR b b' hlt hlt' hblock
    exact .inl (by rwa [hget, hget'] at hrel)
  · obtain rfl : b = b' := hblock
    exact .inr ⟨Option.some.inj (hadopted.symm.trans hadopted'), hlo⟩

/-- A returned pair has a hi that is not reserved and a lo inside the block. -/
theorem returned (h : Coherent c L (M.shared L)) (hp : (i, .ended (.claimed p.1 p.2)) ∈ M.log) :
    p.1 ≠ reserved ∧ 0 ≤ p.2 ∧ p.2 < L.capacity := by
  obtain ⟨later, before, hlog⟩ := List.append_of_mem hp
  obtain ⟨b, -, hadopted, hlo, hinside⟩ := h.exists_win hlog
  exact ⟨h.useful _ (List.mem_of_getElem? hadopted), hlo, hinside⟩

/-- A returned pair makes the identifier that it has among the integers. -/
theorem exists_id (h : Coherent c L (M.shared L)) (hexact : ∀ p ∈ M.pairs, L.Exact p.1 p.2)
    (hp : (i, .ended (.claimed p.1 p.2)) ∈ M.log) :
    ∃ id, L.compose p.1 p.2 = .ok id ∧ id.toInt = L.value p.1 p.2 := by
  obtain ⟨hhi, hlo, hinside⟩ := h.returned hp
  exact L.compose_of_exact hhi hlo hinside (hexact p (Machine.mem_pairs hp))

/-- Pairs in order make identifiers in order. -/
theorem id_lt (h : Coherent c L (M.shared L)) (hexact : ∀ p ∈ M.pairs, L.Exact p.1 p.2)
    (hord : L.Apart p.1 q.1 ∨ p.1 = q.1 ∧ p.2 < q.2)
    (hp : (i, .ended (.claimed p.1 p.2)) ∈ M.log) (hq : (j, .ended (.claimed q.1 q.2)) ∈ M.log) :
    ∃ id id', L.compose p.1 p.2 = .ok id ∧ L.compose q.1 q.2 = .ok id' ∧ id < id' := by
  obtain ⟨id, hid, hvalue⟩ := h.exists_id hexact hp
  obtain ⟨id', hid', hvalue'⟩ := h.exists_id hexact hq
  refine ⟨id, id', hid, hid', ?_⟩
  rw [Int64.lt_iff_toInt_lt, hvalue, hvalue']
  exact Layout.value_lt hord (h.returned hp).2.2 (h.returned hq).2.1

/-- Identifiers rise along a thread: its ticket is gone when a call ends. -/
theorem pairwise_ids (h : Coherent c L (M.shared L))
    (hapart : (Ledger.ofLog L M.log).usable.Pairwise L.Apart)
    (hexact : ∀ p ∈ M.pairs, L.Exact p.1 p.2) (i : Nat) : (M.ids L i).Pairwise (· > ·) := by
  unfold Machine.ids Machine.endings
  rw [List.filterMap_filterMap, List.pairwise_filterMap, List.pairwise_iff_forall_sublist]
  intro a a' hsub id hid id' hid'
  obtain ⟨_, he, hclaimed⟩ := Option.bind_eq_some_iff.mp hid
  obtain ⟨_, he', hclaimed'⟩ := Option.bind_eq_some_iff.mp hid'
  obtain ⟨q, rfl, hq⟩ := Ending.claimed_of_id? hclaimed
  obtain ⟨p, rfl, hp⟩ := Ending.claimed_of_id? hclaimed'
  obtain rfl := Machine.of_ending he
  obtain rfl := Machine.of_ending he'
  -- the later call of the thread is in front
  obtain ⟨later, during, before, hlog, -⟩ := exists_split_of_sublist hsub
  have hnone : (Ledger.ofLog L ((i, .ended (.claimed p.1 p.2)) :: before)).tickets i = none := by
    simp [Ledger.ofLog, Ledger.book, Ledger.redeem]
  have hord := h.ordered hapart hlog hnone List.mem_cons_self
  obtain ⟨x, y, hx, hy, hlt⟩ := h.id_lt hexact hord
    (hsub.subset (List.mem_cons_of_mem _ List.mem_cons_self)) (hsub.subset List.mem_cons_self)
  obtain rfl := Except.ok.inj (hx.symm.trans hp)
  obtain rfl := Except.ok.inj (hy.symm.trans hq)
  exact hlt

end Coherent

/-! ## Runs -/

/-- The calls of both designs keep to the discipline. -/
theorem Check.routine_secure (c : Check) (attempts : UInt32) (i : Nat) (V : Shared) :
    Secure c L i ((c.design attempts).routine L : Routine ε) V := by
  cases c with
  | reread => exact Optimistic.routine_secure attempts V
  | version => exact Stamped.routine_secure attempts V

/-- **Calls in real time.** Take a design that counts without the lock, a source whose
usable answers rise, and any number of threads, calls and attempts in any interleaving.
If one call returned a pair before another one began, the later pair is greater. Where
no identifier overflows and blocks do not overlap, identifiers rise along every thread,
a later call gets a greater identifier, and in particular none below the first
identifier of the block that the earlier call was in. -/
theorem calls_in_real_time {S : Source σ ε} {kind : LockKind} {L : Layout} {c : Check}
    {attempts : UInt32} {threads : Nat} {s : σ} {sched : List Nat} {M : Machine σ ε}
    (hrun : ((Generator.fresh (c.design attempts) L).arena S kind).run
      (.idle threads .fresh s) sched = some M)
    (hroom : (Ledger.ofLog L M.log).bumps + (Ledger.ofLog L M.log).turns < 2 ^ 62)
    (hrising : (Ledger.ofLog L M.log).usable.Pairwise (· < ·)) :
    let g := Ledger.ofLog L M.log
    (∃ n, M.source = S.after n s ∧ g.usable = S.usables n s) ∧
      (∀ p q, M.Precedes p q → Below p q) ∧
      (g.usable.Pairwise L.Apart → (∀ p ∈ M.pairs, L.Exact p.1 p.2) →
        (∀ i, (M.ids L i).Pairwise (· > ·)) ∧
        ∀ p q, M.Precedes p q → ∃ id id', L.compose p.1 p.2 = .ok id ∧
          L.compose q.1 q.2 = .ok id' ∧ id < id' ∧
          (L.Exact p.1 0 → ∃ first, L.compose p.1 0 = .ok first ∧ first < id')) := by
  intro g
  have hdistinct : g.usable.Nodup := hrising.imp fun hlt => Int64.ne_of_lt hlt
  have granted : Granted c (Ledger.ofLog L M.log) :=
    ⟨by omega, fun _ => by omega, fun _ => hdistinct⟩
  have h : Coherent c L (M.shared L) :=
    (Safe.run (fun i V => c.routine_secure attempts i V) granted (.idle c L threads s)
      hrun).coherent
  -- a call that has just begun has claimed nothing yet
  have hord : ∀ {R : Int64 → Int64 → Prop} {p q : Int64 × Int64}, g.usable.Pairwise R →
      M.Precedes p q → R p.1 q.1 ∨ p.1 = q.1 ∧ p.2 < q.2 := by
    rintro R p q hR ⟨i, j, hsub⟩
    obtain ⟨later, during, before, hlog, hbefore⟩ := exists_split_of_sublist hsub
    have hnone : (Ledger.ofLog L ((j, .began) :: before)).tickets j = none := by
      simp [Ledger.ofLog, Ledger.book, Ledger.forget]
    exact h.ordered hR hlog hnone (List.mem_cons_of_mem _ (List.singleton_sublist.mp hbefore))
  refine ⟨Arena.usable_run L s (n := 0) hrun rfl rfl, fun p q => hord hrising,
    fun hapart hexact => ⟨h.pairwise_ids hapart hexact, fun p q hpq => ?_⟩⟩
  have hpqord := hord hapart hpq
  obtain ⟨i, j, hsub⟩ := hpq
  have hp : (i, .ended (.claimed p.1 p.2)) ∈ M.log := hsub.subset (by simp)
  have hq : (j, .ended (.claimed q.1 q.2)) ∈ M.log := hsub.subset (by simp)
  obtain ⟨hhi, hlo, -⟩ := h.returned hp
  obtain ⟨id, id', hid, hid', hlt⟩ := h.id_lt hexact hpqord hp hq
  refine ⟨id, id', hid, hid', hlt, fun hexact₀ => ?_⟩
  obtain ⟨first, hfirst, hvalue⟩ := L.compose_of_exact hhi (Int64.le_refl 0) L.positive hexact₀
  obtain ⟨_, hidq, hvalue'⟩ := h.exists_id hexact hq
  obtain rfl := Except.ok.inj (hidq.symm.trans hid')
  refine ⟨first, hfirst, ?_⟩
  rw [Int64.lt_iff_toInt_lt, hvalue, hvalue']
  refine Layout.value_lt (hpqord.imp_right fun hsame => ⟨hsame.1, ?_⟩) L.positive
    (h.returned hq).2.1
  exact Int64.lt_of_le_of_lt hlo hsame.2

/-- A thread that has looked at hi while another one takes the last identifier of the
block, and then starts the next block. -/
theorem calls_in_real_time_over_rollover :
    ∃ M, ((Generator.fresh (Check.version.design 1) ⟨2, .pooled, by decide⟩).arena
        (Progression.source Unit) .poisoning).run (.idle 2 .fresh ⟨3, 2, by decide⟩)
        (List.replicate 14 0 ++ List.replicate 4 1 ++ List.replicate 8 0
          ++ List.replicate 13 1) = some M ∧
      M.pairs = [(5, 0), (3, 1), (3, 0)] ∧ M.Precedes (3, 0) (5, 0) ∧ Below (3, 0) (5, 0) ∧
      M.ids ⟨2, .pooled, by decide⟩ 0 = [4, 3] ∧
      (M.ids ⟨2, .pooled, by decide⟩ 0).Pairwise (· > ·) := by
  have h : (((Generator.fresh (Check.version.design 1) ⟨2, .pooled, by decide⟩).arena
        (Progression.source Unit) .poisoning).run (.idle 2 .fresh ⟨3, 2, by decide⟩)
        (List.replicate 14 0 ++ List.replicate 4 1 ++ List.replicate 8 0
          ++ List.replicate 13 1)).map
      (fun M =>
        let g := Ledger.ofLog ⟨2, .pooled, by decide⟩ M.log
        (g.bumps + g.turns, g.usable, M.pairs, M.ids ⟨2, .pooled, by decide⟩ 0,
          decide ([(1, Event.ended (.claimed 5 0)), (1, .began),
            (0, .ended (.claimed 3 0))].Sublist M.log)))
        = some (8, [3, 5], [(5, 0), (3, 1), (3, 0)], [4, 3], true) := by
    decide +kernel
  obtain ⟨M, hM, hbooks⟩ := Option.map_eq_some_iff.mp h
  simp only [Prod.mk.injEq, decide_eq_true_eq] at hbooks
  obtain ⟨hcount, husable, hpairs, hids, hsub⟩ := hbooks
  have hprecedes : M.Precedes (3, 0) (5, 0) := ⟨0, 1, hsub⟩
  obtain ⟨-, hbelow, hrest⟩ := calls_in_real_time hM (by rw [hcount]; decide)
    (by rw [husable]; decide)
  have hapart : (Ledger.ofLog ⟨2, .pooled, by decide⟩ M.log).usable.Pairwise
      (Layout.Apart ⟨2, .pooled, by decide⟩) := by
    rw [husable]
    exact List.pairwise_pair.mpr (show (3 : Int) + 2 ≤ 5 by decide)
  refine ⟨M, hM, hpairs, hprecedes, hbelow _ _ hprecedes, hids, (hrest hapart ?_).1 0⟩
  rw [hpairs]
  simp only [List.forall_mem_cons, List.not_mem_nil, false_imp_iff, implies_true, and_true]
  refine ⟨?_, ?_, ?_⟩
  · exact show -2 ^ 63 ≤ (5 : Int) ∧ (5 : Int) < 2 ^ 63 by decide
  · exact show -2 ^ 63 ≤ (4 : Int) ∧ (4 : Int) < 2 ^ 63 by decide
  · exact show -2 ^ 63 ≤ (3 : Int) ∧ (3 : Int) < 2 ^ 63 by decide

end HiLo
