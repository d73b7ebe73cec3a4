/-
HiLo.Proofs.Uniqueness — no pair is handed out twice, however calls overlap.

Both designs that count without the lock are safe for any number of threads and
any interleaving, as long as the counters have room. Under a stamp this is true
of every source: a hi that is answered twice is adopted twice, and each adoption
gives every lo away once (`stamped_calls_apart`). A generator that looks at hi
twice tells blocks apart by their hi, so there the usable answers of the source
must differ (`optimistic_calls_apart`).
-/
import HiLo.Proofs.Attempts
import HiLo.Source.Feed
import Mathlib.Data.List.Basic

namespace HiLo

variable {σ ε : Type} {c : Check} {L : Layout} {V : Shared}

/-! ## Counting wins -/

namespace Coherent

/-- A pair is won at most as often as its hi was adopted, because each adoption
gives its lo away once. -/
theorem count_pair_le (h : Coherent c L V) (hi lo : Int64) :
    (V.ledger.wins.map Win.pair).count (hi, lo) ≤ V.ledger.usable.count hi := by
  have hkeys : ((V.ledger.wins.filter (·.pair == (hi, lo))).map Win.key).Nodup :=
    h.fair.once.sublist (List.filter_sublist.map _)
  have hsub : (V.ledger.wins.filter (·.pair == (hi, lo))).map Win.key
      ⊆ (V.ledger.adopted.idxsOf hi).map fun b => some (b, lo) := by
    intro k hk
    obtain ⟨w, hw, rfl⟩ := List.mem_map.mp hk
    obtain ⟨hmem, hpair⟩ := List.mem_filter.mp hw
    obtain ⟨rfl, rfl⟩ : w.hi = hi ∧ w.lo = lo := by simpa [Win.pair] using hpair
    obtain ⟨b, hticket, hadopted, -⟩ := h.right w hmem
    obtain ⟨hlt, hget⟩ := List.getElem?_eq_some_iff.mp hadopted
    refine List.mem_map.mpr ⟨b, ?_, by simp [Win.key, hticket, Ticket.key]⟩
    exact List.mem_idxsOf_iff_exists_getElem_pos.mpr ⟨hlt, by simp [hget]⟩
  calc (V.ledger.wins.map Win.pair).count (hi, lo)
      = ((V.ledger.wins.filter (·.pair == (hi, lo))).map Win.key).length := by
        rw [List.length_map, List.count, List.countP_map, List.countP_eq_length_filter]
        rfl
    _ ≤ ((V.ledger.adopted.idxsOf hi).map fun b => some (b, lo)).length :=
        hkeys.length_le_of_subset hsub
    _ = V.ledger.adopted.count hi := by rw [List.length_map, List.length_idxsOf]
    _ ≤ V.ledger.usable.count hi := h.drawn.sublist.count_le hi

/-- Where no usable answer repeats, no pair is won twice. -/
theorem nodup_pairs (h : Coherent c L V) (hdistinct : V.ledger.usable.Nodup) :
    (V.ledger.wins.map Win.pair).Nodup := by
  rw [List.nodup_iff_count] at hdistinct ⊢
  rintro ⟨hi, lo⟩
  exact Nat.le_trans (h.count_pair_le hi lo) (hdistinct hi)

/-- The hi of a pair that was won is a usable answer of the source. -/
theorem win_hi (h : Coherent c L V) {w : Win} (hw : w ∈ V.ledger.wins) :
    w.hi ≠ reserved ∧ w.hi ∈ V.ledger.usable := by
  obtain ⟨b, -, hadopted, -⟩ := h.right w hw
  have hmem := List.mem_of_getElem? hadopted
  exact ⟨h.useful _ hmem, h.drawn.subset hmem⟩

end Coherent

/-! ## Overlapping calls -/

/-- **Overlapping calls under a stamp.** Whatever the source answers, however many
threads call however often, and however their actions interleave: a call that
returns a pair has claimed its lo in the block of its hi, inside the capacity; the
hi is a usable answer of the source; and no adoption of a hi gives a lo away twice.
So a pair is returned at most as often as the source answered its hi, and never
twice if its usable answers differ. -/
theorem stamped_calls_apart {S : Source σ ε} {kind : LockKind} {L : Layout} {attempts : UInt32}
    {threads : Nat} {s : σ} {sched : List Nat} {M : Machine σ ε}
    (hrun : ((Generator.fresh (.stamped attempts) L).arena S kind).run
      (.idle threads .fresh s) sched = some M)
    (hroom : (Ledger.ofLog L M.log).bumps + (Ledger.ofLog L M.log).turns < 2 ^ 62) :
    let g := Ledger.ofLog L M.log
    (∃ n, M.source = S.after n s ∧ g.usable = S.usables n s) ∧
      g.wins.map Win.pair = M.pairs ∧
      (∀ w ∈ g.wins, w.Right L g ∧ w.hi ≠ reserved ∧ w.hi ∈ g.usable) ∧
      (g.wins.map Win.key).Nodup ∧
      (∀ hi lo, M.pairs.count (hi, lo) ≤ g.usable.count hi) ∧
      (g.usable.Nodup → M.pairs.Nodup) := by
  intro g
  have granted : Granted .version (Ledger.ofLog L M.log) :=
    ⟨by omega, fun _ => by omega, nofun⟩
  have h : Coherent .version L (M.shared L) :=
    (Safe.run (fun _ => Stamped.routine_secure attempts) granted
      (.idle .version L threads s) hrun).coherent
  have hpairs := Ledger.pairs_ofLog L M
  refine ⟨Arena.usable_run L s (n := 0) hrun rfl rfl, hpairs, ?_⟩
  rw [← hpairs]
  exact ⟨fun w hw => ⟨h.right w hw, h.win_hi hw⟩, h.fair.once, h.count_pair_le, h.nodup_pairs⟩

/-- A source that repeats itself, and a thread whose stamp goes stale while another
one adopts the first hi. -/
theorem stamped_calls_apart_repeating :
    ∃ M, ((Generator.fresh (.stamped 1) ⟨1, .hilo, by decide⟩).arena Feed.source .poisoning).run
        (.idle 2 .fresh (.ofSupply (.script (.ofList [.value 5] true)) false))
        ([1, 1, 1] ++ List.replicate 14 0 ++ List.replicate 13 1) = some M ∧
      M.pairs = [(5, 0), (5, 0)] ∧
      ((Ledger.ofLog ⟨1, .hilo, by decide⟩ M.log).wins.map Win.key).Nodup := by
  have h : (((Generator.fresh (.stamped 1) ⟨1, .hilo, by decide⟩).arena Feed.source
        .poisoning).run (.idle 2 .fresh (.ofSupply (.script (.ofList [.value 5] true)) false))
        ([1, 1, 1] ++ List.replicate 14 0 ++ List.replicate 13 1)).map
      (fun M =>
        let g := Ledger.ofLog ⟨1, .hilo, by decide⟩ M.log
        (g.bumps + g.turns, M.pairs)) = some (6, [(5, 0), (5, 0)]) := by
    decide +kernel
  obtain ⟨M, hM, hbooks⟩ := Option.map_eq_some_iff.mp h
  obtain ⟨hcount, hpairs⟩ := Prod.mk.inj hbooks
  exact ⟨M, hM, hpairs, (stamped_calls_apart hM (by rw [hcount]; decide)).2.2.2.1⟩

/-- **Overlapping calls that look at hi twice.** If the usable answers of the source
differ, then for any number of threads, calls and attempts and any interleaving: the
hi of the books is the one in its cell; a call that returns a pair has claimed its lo,
inside the capacity, while its hi was published, or has published its hi right after,
as the first one; and no two calls return the same pair. -/
theorem optimistic_calls_apart {S : Source σ ε} {kind : LockKind} {L : Layout}
    {attempts : UInt32} {threads : Nat} {s : σ} {sched : List Nat} {M : Machine σ ε}
    (hrun : ((Generator.fresh (.optimistic attempts) L).arena S kind).run
      (.idle threads .fresh s) sched = some M)
    (hroom : (Ledger.ofLog L M.log).bumps < 2 ^ 62)
    (hdistinct : (Ledger.ofLog L M.log).usable.Nodup) :
    let g := Ledger.ofLog L M.log
    (∃ n, M.source = S.after n s ∧ g.usable = S.usables n s) ∧ M.memory.hi = g.published ∧
      g.wins.map Win.pair = M.pairs ∧
      (∀ w ∈ g.wins, w.Right L g ∧ w.hi ≠ reserved ∧ w.hi ∈ g.usable) ∧ M.pairs.Nodup := by
  intro g
  have granted : Granted .reread (Ledger.ofLog L M.log) := ⟨hroom, nofun, fun _ => hdistinct⟩
  have h : Coherent .reread L (M.shared L) :=
    (Safe.run (fun _ => Optimistic.routine_secure attempts) granted
      (.idle .reread L threads s) hrun).coherent
  have hpairs := Ledger.pairs_ofLog L M
  refine ⟨Arena.usable_run L s (n := 0) hrun rfl rfl, h.hi, hpairs, ?_⟩
  rw [← hpairs]
  exact ⟨fun w hw => ⟨h.right w hw, h.win_hi hw⟩, h.nodup_pairs hdistinct⟩

/-- A lo that is counted up between the two stores of a rollover. -/
theorem optimistic_calls_apart_in_rollover :
    ∃ M, ((Generator.fresh (.optimistic 1) ⟨1, .hilo, by decide⟩).arena
        (Progression.source Cause) .poisoning).run (.idle 2 .fresh ⟨5, 1, by decide⟩)
        (List.replicate 11 0 ++ [1, 1, 1] ++ List.replicate 9 0 ++ [1] ++ List.replicate 4 0
          ++ List.replicate 9 1) = some M ∧
      M.pairs = [(7, 0), (6, 0), (5, 0)] ∧ M.pairs.Nodup := by
  have h : (((Generator.fresh (.optimistic 1) ⟨1, .hilo, by decide⟩).arena
        (Progression.source Cause) .poisoning).run (.idle 2 .fresh ⟨5, 1, by decide⟩)
        (List.replicate 11 0 ++ [1, 1, 1] ++ List.replicate 9 0 ++ [1] ++ List.replicate 4 0
          ++ List.replicate 9 1)).map
      (fun M =>
        let g := Ledger.ofLog ⟨1, .hilo, by decide⟩ M.log
        (g.bumps, g.usable, M.pairs))
        = some (5, [5, 6, 7], [(7, 0), (6, 0), (5, 0)]) := by
    decide +kernel
  obtain ⟨M, hM, hbooks⟩ := Option.map_eq_some_iff.mp h
  obtain ⟨hcount, hrest⟩ := Prod.mk.inj hbooks
  obtain ⟨husable, hpairs⟩ := Prod.mk.inj hrest
  refine ⟨M, hM, hpairs, (optimistic_calls_apart hM ?_ ?_).2.2.2.2⟩
  · rw [hcount]
    decide
  · rw [husable]
    decide

end HiLo
