/-
HiLo.Proofs.Custody — what calls that overlap leave in the cells.

However the calls of a shared generator overlap, each of them stands at a stage of
`Orderly`, and only the one inside holds the lock. So lo is moved by the counts of all
calls together at most, and a generator without a hi has an untouched lo whenever its
lock is free. `Kept.act` shows that one action preserves this, and `Kept.run` follows
an interleaving of any length. The source may answer what it likes, the same hi twice
included.

`Kept.exists_holds` reads off what a generator holds between its calls.
-/
import HiLo.Proofs.Desk
import HiLo.Proofs.Interleaving
import HiLo.Proofs.Steps

namespace HiLo

variable {σ ε : Type}

/-! ## Counts -/

/-- The end of a call counts nothing. -/
theorem Ledger.bumps_ended (L : Layout) (i : Nat) (e : Ending ε) (log : List (Nat × Event ε)) :
    (ofLog L ((i, .ended e) :: log)).bumps = (ofLog L log).bumps := by
  cases e <;> rfl

/-! ## Calls at their stages -/

/-- A thread stands at a stage, with the lock and the cells as they are. A call inside
that did not move lo finds it untouched while there is no hi. -/
def Stage.Stands (holder : Option Nat) (m : Memory) (i : Nat) : Stage → Prop
  | .outside seen => holder ≠ some i ∧ (seen = true → m.hi ≠ reserved)
  | .inside hi clean =>
    holder = some i ∧ m.hi = hi ∧ (clean = true → hi = reserved → m.lo = -1)
  | .past _ => holder ≠ some i

/-- Every call of a machine stands at a stage, and lo is where the counts since some
`base` can have brought it. -/
structure Kept (L : Layout) (strict : Bool) (base : Nat) (M : Machine σ ε) : Prop where
  ranged : Ranged L strict (base + (Ledger.ofLog L M.log).bumps) M.memory.lo
  untouched : M.holder = none → M.memory.hi = reserved → M.memory.lo = -1
  held {i : Nat} (holder : M.holder = some i) : ∃ r, M.threads[i]? = some (some r)
  orderly {i : Nat} {r : Routine ε} (busy : M.threads[i]? = some (some r)) :
    ∃ st, Orderly L strict st r ∧ st.Stands M.holder M.memory i

section

variable {L : Layout} {strict : Bool} {base i j : Nat} {M M' : Machine σ ε} {m m' : Memory}
  {holder holder' : Option Nat} {st : Stage} {r : Routine ε}

/-- A thread stands where it stood, if nothing that it relies on has changed. -/
theorem Stage.Stands.congr (h : st.Stands holder m j) (same : holder' = some j ↔ holder = some j)
    (hi : m'.hi = m.hi) (lo : m.hi = reserved → m'.lo = m.lo) : st.Stands holder' m' j := by
  cases st with
  | outside seen => exact ⟨fun hj => h.1 (same.mp hj), fun hseen => hi ▸ h.2 hseen⟩
  | inside hi' clean =>
    obtain ⟨hholder, hhi, hlo⟩ := h
    exact ⟨same.mpr hholder, hi.trans hhi, fun hclean hnone =>
      (lo (hhi.trans hnone)).trans (hlo hclean hnone)⟩
  | past crashed => exact fun hj => h (same.mp hj)

/-- A thread without the lock relies on nothing but that a hi stays. -/
theorem Stage.Stands.of_free (h : st.Stands holder m j) (free : holder ≠ some j)
    (free' : holder' ≠ some j) (hi : m.hi ≠ reserved → m'.hi ≠ reserved) :
    st.Stands holder' m' j := by
  cases st with
  | outside seen => exact ⟨free', fun hseen => hi (h.2 hseen)⟩
  | inside hi' clean => exact absurd h.1 free
  | past crashed => exact free'

namespace Kept

/-- A thread has moved. -/
theorem advance (h : Kept L strict base M) {o : Option (Routine ε)}
    (busy : i < M.threads.length) (threads : M'.threads = M.threads.set i o)
    (ranged : Ranged L strict (base + (Ledger.ofLog L M'.log).bumps) M'.memory.lo)
    (untouched : M'.holder = none → M'.memory.hi = reserved → M'.memory.lo = -1)
    (own : ∀ r, o = some r → ∃ st, Orderly L strict st r ∧ st.Stands M'.holder M'.memory i)
    (held : M'.holder = some i → o ≠ none)
    (others : ∀ j ≠ i, (M'.holder = some j ↔ M.holder = some j) ∧
      ∀ st : Stage, st.Stands M.holder M.memory j → st.Stands M'.holder M'.memory j) :
    Kept L strict base M' := by
  have hattended : M.Attended fun i r =>
      ∃ st, Orderly L strict st r ∧ st.Stands M.holder M.memory i := ⟨h.held, h.orderly⟩
  have hattended' : M'.Attended fun i r =>
      ∃ st, Orderly L strict st r ∧ st.Stands M'.holder M'.memory i :=
    hattended.advance busy threads own held fun j hj =>
      ⟨(others j hj).1.mp, fun r ⟨st, horderly, hst⟩ => ⟨st, horderly, (others j hj).2 st hst⟩⟩
  exact ⟨ranged, untouched, hattended'.held, hattended'.each⟩

/-- A thread has moved, and hi, lo and the lock are as before. -/
theorem stay (h : Kept L strict base M) {o : Option (Routine ε)}
    (busy : i < M.threads.length) (threads : M'.threads = M.threads.set i o)
    (holder : M'.holder = M.holder) (hi : M'.memory.hi = M.memory.hi)
    (lo : M'.memory.lo = M.memory.lo)
    (bumps : (Ledger.ofLog L M'.log).bumps = (Ledger.ofLog L M.log).bumps)
    (own : ∀ r, o = some r → ∃ st, Orderly L strict st r ∧ st.Stands M.holder M.memory i)
    (held : M.holder = some i → o ≠ none) : Kept L strict base M' := by
  have hstands : ∀ {j : Nat} {st : Stage}, st.Stands M.holder M.memory j →
      st.Stands M'.holder M'.memory j := fun hst => hst.congr (by rw [holder]) hi fun _ => lo
  refine h.advance busy threads (by rw [bumps, lo]; exact h.ranged) ?_ (fun r hr => ?_)
    (by rwa [holder]) fun j _ => ⟨by rw [holder], fun _ => hstands⟩
  · rw [holder, hi, lo]
    exact h.untouched
  · obtain ⟨st, horderly, hst⟩ := own r hr
    exact ⟨st, horderly, hstands hst⟩

/-- **One action of one thread leaves every call at a stage.** -/
theorem act {A : Arena σ ε} (room : base + (Ledger.ofLog L M.log).bumps < 2 ^ 62)
    (h : Kept L strict base M) (busy : M.threads[i]? = some (some r))
    (hact : A.act M i r = some M') : Kept L strict base M' := by
  have hi : i < M.threads.length := (List.getElem?_eq_some_iff.mp busy).1
  obtain ⟨st, horderly, hst⟩ := h.orderly busy
  obtain ⟨e, rfl, rfl⟩ | ⟨p, hp, hfree, rfl⟩ := Arena.act_cases hact
  · -- only a call without the lock ends
    refine h.stay hi rfl rfl rfl rfl (Ledger.bumps_ended L i e _) nofun fun hholder => ?_
    cases horderly with
    | finish => exact absurd hholder hst.1
    | ended => exact absurd hholder hst
  cases horderly with
  | note rest =>
    obtain rfl := Option.some.inj hp
    exact h.stay hi rfl rfl rfl rfl rfl (fun r hr => Option.some.inj hr ▸ ⟨_, rest, hst⟩) nofun
  | readVersion rest =>
    obtain rfl := Option.some.inj hp
    exact h.stay hi rfl rfl rfl rfl rfl (fun r hr => Option.some.inj hr ▸ ⟨_, rest _, hst⟩) nofun
  | lookHi none some =>
    obtain rfl := Option.some.inj hp
    refine h.stay hi rfl rfl rfl rfl rfl (fun r hr => ?_) nofun
    obtain rfl := Option.some.inj hr
    by_cases hhi : M.memory.hi = reserved
    · exact ⟨_, hhi ▸ none, hst⟩
    · exact ⟨_, some _ hhi, hst.1, fun _ => hhi⟩
  | countLo may rest =>
    obtain rfl := Option.some.inj hp
    have huseful : M.memory.hi ≠ reserved := hst.2 rfl
    exact h.advance hi rfl (h.ranged.bump may room) (fun _ hnone => absurd hnone huseful)
      (fun r hr => Option.some.inj hr ▸ ⟨_, rest _, hst⟩) nofun fun j _ =>
        ⟨Iff.rfl, fun st hj => hj.congr Iff.rfl rfl fun hnone => absurd hnone huseful⟩
  | acquire rest =>
    by_cases hm : M.memory.poisoned = true
    · obtain rfl := Option.some.inj ((if_pos hm).symm.trans hp)
      exact h.stay hi rfl rfl rfl rfl rfl
        (fun r hr => Option.some.inj hr ▸ ⟨.outside false, .finish nofun, hst.1, nofun⟩) nofun
    · obtain rfl := Option.some.inj ((if_neg hm).symm.trans hp)
      have hnone := hfree rfl
      refine h.advance hi rfl h.ranged nofun (fun r hr => ?_) nofun fun j hj => ?_
      · obtain rfl := Option.some.inj hr
        exact ⟨_, rest M.memory.hi, rfl, rfl, fun _ => h.untouched hnone⟩
      · have hiff : Option.some i = some j ↔ M.holder = some j := by
          simp [hnone, Ne.symm hj]
        exact ⟨hiff, fun st hst => hst.congr hiff rfl fun _ => rfl⟩
  | finish => cases hp
  | readHi rest =>
    obtain rfl := Option.some.inj hp
    obtain ⟨hholder, rfl, hlo⟩ := hst
    exact h.stay hi rfl rfl rfl rfl rfl
      (fun r hr => Option.some.inj hr ▸ ⟨_, rest, hholder, rfl, hlo⟩) nofun
  | readLo may rest =>
    obtain rfl := Option.some.inj hp
    subst may
    exact h.stay hi rfl rfl rfl rfl rfl
      (fun r hr => Option.some.inj hr ▸ ⟨_, rest _ h.ranged.low h.ranged.high, hst⟩) nofun
  | bumpLo may rest =>
    obtain rfl := Option.some.inj hp
    obtain ⟨hholder, rfl, -⟩ := hst
    refine h.advance hi rfl (h.ranged.bump may room) (fun hnone => ?_)
      (fun r hr => Option.some.inj hr ▸ ⟨_, rest _, hholder, rfl, nofun⟩) nofun fun j hj => ?_
    · exact absurd (hholder.symm.trans hnone) nofun
    · have hother : M.holder ≠ some j := by simp [hholder, Ne.symm hj]
      exact ⟨Iff.rfl, fun st hst => hst.of_free hother hother id⟩
  | bumpVersion rest =>
    obtain rfl := Option.some.inj hp
    exact h.stay hi rfl rfl rfl rfl rfl (fun r hr => Option.some.inj hr ▸ ⟨_, rest, hst⟩) nofun
  | writeHi useful rest =>
    obtain rfl := Option.some.inj hp
    obtain ⟨hholder, rfl, hlo⟩ := hst
    refine h.advance hi rfl h.ranged (fun _ hnone => absurd hnone useful)
      (fun r hr => Option.some.inj hr ▸ ⟨_, rest, hholder, rfl, fun _ hnone => absurd hnone useful⟩)
      nofun fun j hj => ?_
    have hother : M.holder ≠ some j := by simp [hholder, Ne.symm hj]
    exact ⟨Iff.rfl, fun st hst => hst.of_free hother hother fun _ => useful⟩
  | writeLo useful low high zero rest =>
    obtain rfl := Option.some.inj hp
    obtain ⟨hholder, rfl, -⟩ := hst
    refine h.advance hi rfl (.set low high zero) (fun _ hnone => absurd hnone useful)
      (fun r hr => Option.some.inj hr ▸ ⟨_, rest, hholder, rfl, nofun⟩) nofun
      fun j _ => ⟨Iff.rfl, fun st hst => hst.congr Iff.rfl rfl fun hnone => absurd hnone useful⟩
  | draw rest =>
    obtain rfl := Option.some.inj hp
    refine h.stay hi rfl rfl rfl rfl rfl (fun r hr => ⟨_, ?_, hst⟩) nofun
    obtain rfl := Option.some.inj hr
    split
    · exact .draw rest
    · next hr => exact rest _ (Bool.eq_false_iff.mpr hr)
  | @release hi' clean crashed r useful rest =>
    obtain rfl := Option.some.inj hp
    obtain ⟨hholder, rfl, hlo⟩ := hst
    refine h.advance hi rfl h.ranged (fun _ hnone => ?_)
      (fun r hr => Option.some.inj hr ▸ ⟨_, rest, nofun⟩) nofun fun j hj => ?_
    · rcases useful with hclean | hne
      · exact hlo hclean hnone
      · exact absurd hnone hne
    · have hother : M.holder ≠ some j := by simp [hholder, Ne.symm hj]
      exact ⟨iff_of_false nofun hother, fun st hst => hst.of_free hother nofun id⟩
  | ended => cases hp

/-- **One move of one thread leaves every call at a stage.** -/
theorem move {A : Arena σ ε} (call : Orderly L strict (.outside false) A.call)
    (room : base + (Ledger.ofLog L M.log).bumps < 2 ^ 62) (h : Kept L strict base M)
    (hmove : A.move M i = some M') : Kept L strict base M' := by
  rcases Arena.move_cases hmove with ⟨hidle, rfl⟩ | ⟨r, hbusy, hact⟩
  · have hholder : M.holder ≠ some i := fun hholder => by
      obtain ⟨r, hr⟩ := h.held hholder
      exact absurd (hidle.symm.trans hr) nofun
    exact h.stay (List.getElem?_eq_some_iff.mp hidle).1 rfl rfl rfl rfl rfl
      (fun r hr => Option.some.inj hr ▸ ⟨_, call, hholder, nofun⟩) nofun
  · exact h.act room hbusy hact

/-- **Every interleaving leaves every call at a stage**, as long as lo cannot wrap. -/
theorem run {A : Arena σ ε} (call : Orderly L strict (.outside false) A.call) :
    ∀ {sched : List Nat} {M M' : Machine σ ε}, A.run M sched = some M' →
      base + (Ledger.ofLog L M'.log).bumps < 2 ^ 62 → Kept L strict base M → Kept L strict base M'
  | [], M, M', hrun, _, h => by
    obtain rfl := Option.some.inj hrun
    exact h
  | i :: sched, M, M', hrun, room, h => by
    obtain ⟨M₁, hmove, hrest⟩ := Option.bind_eq_some_iff.mp hrun
    have hgrows : (Ledger.ofLog L M.log).bumps ≤ (Ledger.ofLog L M'.log).bumps :=
      ((Arena.grows_move L hmove).trans (Arena.grows_run L hrest)).bumps
    exact run call hrest room (h.move call (by omega) hmove)

/-- Idle threads at cells that are in order. -/
theorem idle {threads : Nat} {s : σ} (ranged : Ranged L strict base m.lo)
    (untouched : m.hi = reserved → m.lo = -1) :
    Kept L strict base (Machine.idle threads m s : Machine σ ε) where
  ranged := ranged
  untouched _ := untouched
  held := nofun
  orderly busy := by
    simp only [Machine.idle] at busy
    rw [List.getElem?_replicate] at busy
    split at busy <;> cases busy

/-- The cells of a new generator are in order. -/
theorem fresh (L : Layout) (strict : Bool) (threads : Nat) (s : σ) :
    Kept L strict 0 (Machine.idle threads .fresh s : Machine σ ε) :=
  .idle (.fresh L strict 0) fun _ => rfl

end Kept

/-! ## Between calls -/

/-- Cells in order hold a stock. -/
theorem Ranged.exists_fits {n : Nat} (h : Ranged L strict n m.lo)
    (untouched : m.hi = reserved → m.lo = -1) : ∃ k, Fits L (L.reach strict n) m k := by
  have hlow := h.low
  have hhigh := h.high
  by_cases hhi : m.hi = reserved
  · exact ⟨.none, .none hhi (by rw [untouched hhi]; rfl)⟩
  · by_cases hroom : m.lo.toInt + 1 < L.size
    · exact ⟨.block m.hi (m.lo.toInt + 1).toNat, .room hhi (by omega) (by omega) (by omega)⟩
    · exact ⟨.block m.hi L.size, .spent hhi (by omega) (by omega)⟩

/-- Between its calls, a generator with a sound lock holds an open desk. -/
theorem Kept.exists_holds (h : Kept L strict 0 M) (free : M.holder = none)
    (sound : M.memory.poisoned = false) (s : σ) :
    ∃ k, Holds L strict (L.reach strict (Ledger.ofLog L M.log).bumps) M.memory
      (⟨k, false, s⟩ : Desk σ) := by
  have hranged := h.ranged
  rw [Nat.zero_add] at hranged
  obtain ⟨k, hfits⟩ := hranged.exists_fits (h.untouched free)
  refine ⟨k, hfits, sound, nofun, fun hstrict => ?_⟩
  subst hstrict
  exact ⟨hranged.low, hranged.high⟩

end

end HiLo
