/-
HiLo.Proofs.Posts — where the calls stand while the first block lasts.

On the way to its first identifiers a new generator goes through few states, whatever the design:
nobody has asked the source, or it was asked once and its answer is the hi; lo was counted up by one
from below zero, and never set (`Early`). A call stands at a `Post`, outside the lock or inside.
`Posted` has both, with whatever is to be followed of a call and of its thread's share of the log,
and says what has to be shown of one move.
-/
import HiLo.Proofs.Booked
import HiLo.Proofs.Values

namespace HiLo

variable {σ ε : Type}

/-! ## Posts -/

/-- Where a call stands: outside the lock before it has counted, where it may have seen the
hi, or with the lo that it has counted; or inside, with the hi that it found, with the hi
that it has drawn, with that and a lo, and with the hi set. -/
inductive Post where
  | waiting (seen : Bool)
  | holding (lo : Int64)
  | working (hi : Int64)
  | drawn
  | counted (lo : Int64)
  | settled (lo : Int64)

namespace Post

/-- The lo that the call has counted and not returned yet. -/
def own : Post → List Int64
  | .holding lo | .counted lo | .settled lo => [lo]
  | .waiting _ | .working _ | .drawn => []

/-- Whether the call has still to count. -/
def wants : Post → Nat
  | .holding _ | .counted _ | .settled _ => 0
  | .waiting _ | .working _ | .drawn => 1

end Post

/-- The source was not asked, and nothing was counted. -/
structure Machine.Untouched (s : σ) (M : Machine σ ε) : Prop where
  source : M.source = s
  replies : M.replies = []
  los : M.los = []

def Post.Stands (hi : Int64) (s : σ) (M : Machine σ ε) (i : Nat) : Post → Prop
  | .waiting seen => M.holder ≠ some i ∧ (seen = true → M.memory.hi = hi)
  | .holding _ => M.holder ≠ some i ∧ M.memory.hi = hi
  | .working found =>
    M.holder = some i ∧ M.memory.hi = found ∧ (found = reserved → M.Untouched s)
  | .drawn | .counted _ =>
    M.holder = some i ∧ M.memory.hi = reserved ∧ M.replies = [.value hi]
  | .settled _ => M.holder = some i ∧ M.memory.hi = hi

/-! ## The cells of a first block -/

/-- The cells while the first block lasts: there is no hi, or it is `hi`, and then the source
was asked once; lo was counted up by one from below zero and never set; and while nobody
works under the lock and there is no hi, nothing has happened. -/
structure Early (hi : Int64) (s : σ) (M : Machine σ ε) : Prop where
  sound : M.memory.poisoned = false
  one : M.memory.hi = reserved ∨ M.memory.hi = hi
  lo : M.memory.lo.toInt + 1 = M.los.length
  los : M.los = (List.range M.los.length).reverse.map .ofNat
  asked : M.memory.hi = hi → M.replies = [.value hi]
  free : M.holder = none → M.memory.hi = reserved → M.Untouched s

/-- The cells are those of a first block, and something holds of every call, its post and its
thread's share of the log, and of the share of every other thread. -/
structure Posted (P : Post → Routine ε → List (Event ε) → Prop) (Q : List (Event ε) → Prop)
    (hi : Int64) (s : σ) (M : Machine σ ε) : Prop where
  early : Early hi s M
  booked : M.Booked (fun i r es => ∃ p : Post, P p r es ∧ p.Stands hi s M i) Q

section

variable {L : Layout} {hi : Int64} {s : σ} {M M' : Machine σ ε} {i j : Nat} {p : Post}
  {e : Event ε} {r : Routine ε}

namespace Post.Stands

/-- A call stands where it stood, if nothing has changed but for what was noted of it. -/
theorem congr (h : p.Stands hi s M j) (holder : M'.holder = M.holder)
    (memory : M'.memory.hi = M.memory.hi) (source : M'.source = M.source)
    (replies : M'.replies = M.replies) (los : M'.los = M.los) : p.Stands hi s M' j := by
  cases p with
  | waiting seen => exact ⟨holder ▸ h.1, memory ▸ h.2⟩
  | holding lo => exact ⟨holder ▸ h.1, memory ▸ h.2⟩
  | working found =>
    refine ⟨holder.trans h.1, memory.trans h.2.1, fun hnone => ?_⟩
    obtain ⟨hsource, hreplies, hlos⟩ := h.2.2 hnone
    exact ⟨source.trans hsource, replies.trans hreplies, los.trans hlos⟩
  | drawn => exact ⟨holder.trans h.1, memory.trans h.2.1, replies.trans h.2.2⟩
  | counted lo => exact ⟨holder.trans h.1, memory.trans h.2.1, replies.trans h.2.2⟩
  | settled lo => exact ⟨holder.trans h.1, memory.trans h.2⟩

/-- A call without the lock relies on nothing but that the hi stays. -/
theorem of_free (h : p.Stands hi s M j) (free : M.holder ≠ some j) (free' : M'.holder ≠ some j)
    (same : M.memory.hi = hi → M'.memory.hi = hi) : p.Stands hi s M' j := by
  cases p with
  | waiting seen => exact ⟨free', fun hseen => same (h.2 hseen)⟩
  | holding lo => exact ⟨free', same h.2⟩
  | working found => exact absurd h.1 free
  | drawn => exact absurd h.1 free
  | counted lo => exact absurd h.1 free
  | settled lo => exact absurd h.1 free

/-- With the hi set, a call relies on nothing else. -/
theorem of_hi (h : p.Stands hi s M j) (useful : hi ≠ reserved) (given : M.memory.hi = hi)
    (holder : M'.holder = M.holder) (memory : M'.memory.hi = M.memory.hi) : p.Stands hi s M' j := by
  have hne : M.memory.hi ≠ reserved := given ▸ useful
  cases p with
  | waiting seen => exact ⟨holder ▸ h.1, memory ▸ h.2⟩
  | holding lo => exact ⟨holder ▸ h.1, memory ▸ h.2⟩
  | working found =>
    exact ⟨holder.trans h.1, memory.trans h.2.1, fun hnone => absurd (h.2.1.trans hnone) hne⟩
  | drawn => exact absurd h.2.1 hne
  | counted lo => exact absurd h.2.1 hne
  | settled lo => exact ⟨holder.trans h.1, memory.trans h.2⟩

end Post.Stands

namespace Early

/-- An event that counts nothing and asks nothing. -/
theorem quiet (h : Early hi s M) (log : M'.log = (i, e) :: M.log) (lo : e.lo? = none)
    (answer : e.answer? = none) (memory : M'.memory = M.memory)
    (free : M'.holder = none → M'.memory.hi = reserved → M'.Untouched s) : Early hi s M' := by
  have hlos : M'.los = M.los := by simp [Machine.los, log, lo]
  have hreplies : M'.replies = M.replies := by simp [Machine.replies, log, answer]
  refine ⟨memory ▸ h.sound, memory ▸ h.one, ?_, ?_, ?_, free⟩
  · rw [memory, hlos]
    exact h.lo
  · rw [hlos]
    exact h.los
  · rw [memory, hreplies]
    exact h.asked

/-- Lo is counted up to the number of the lo values before. -/
theorem next_lo (h : Early hi s M) (room : M.los.length < L.size) :
    M.memory.lo + 1 = .ofNat M.los.length := by
  have hlo := h.lo
  have hsize := L.size_lt
  apply Int64.toInt.inj
  rw [toInt_add_one (by omega), Layout.toInt_lo room, hlo]

/-- Lo is counted up. -/
theorem count (h : Early hi s M) (room : M.los.length < L.size)
    (log : M'.log = (i, .did (.bumpedLo (M.memory.lo + 1))) :: M.log)
    (memory : M'.memory = { M.memory with lo := M.memory.lo + 1 })
    (free : M'.holder = none → M'.memory.hi ≠ reserved) : Early hi s M' := by
  have hnext := h.next_lo room
  have hlos : M'.los = .ofNat M.los.length :: M.los := by
    rw [Machine.los, log, ← hnext]
    rfl
  have hreplies : M'.replies = M.replies := by
    rw [Machine.replies, log]
    rfl
  refine ⟨memory ▸ h.sound, memory ▸ h.one, ?_, ?_, ?_, fun hnone hhi => absurd hhi (free hnone)⟩
  · rw [memory, hlos, List.length_cons]
    dsimp only
    rw [hnext, Layout.toInt_lo room]
    rfl
  · rw [hlos, List.length_cons, List.range_succ, List.reverse_append, List.map_append, ← h.los]
    rfl
  · rw [memory, hreplies]
    exact h.asked

theorem exists_of_mem_los (h : Early hi s M) {lo : Int64} (mem : lo ∈ M.los) :
    ∃ k, k < M.los.length ∧ lo = .ofNat k := by
  rw [h.los] at mem
  obtain ⟨k, hk, rfl⟩ := List.mem_map.mp mem
  exact ⟨k, List.mem_range.mp (List.mem_reverse.mp hk), rfl⟩

end Early

/-! ## Moves of calls at their posts -/

namespace Posted

variable {P : Post → Routine ε → List (Event ε) → Prop} {Q : List (Event ε) → Prop}

/-- A thread has moved. -/
theorem advance (h : Posted P Q hi s M) {o : Option (Routine ε)} (busy : i < M.threads.length)
    (threads : M'.threads = M.threads.set i o) (log : M'.log = (i, e) :: M.log)
    (early : Early hi s M')
    (own : ∀ r, o = some r → ∃ p : Post, P p r (e :: share M.log i) ∧ p.Stands hi s M' i)
    (ended : o = none → Q (e :: share M.log i)) (kept : M'.holder = some i → o ≠ none)
    (others : ∀ j ≠ i, (M'.holder = some j → M.holder = some j) ∧
      ∀ p : Post, p.Stands hi s M j → p.Stands hi s M' j) : Posted P Q hi s M' where
  early := early
  booked := h.booked.advance busy threads log own ended kept fun j hj =>
    ⟨(others j hj).1, fun _ _ ⟨p, hfits, hp⟩ => ⟨p, hfits, (others j hj).2 p hp⟩⟩

/-- A thread has moved, and nothing has changed but for its call. -/
theorem stay (h : Posted P Q hi s M) {o : Option (Routine ε)} (busy : i < M.threads.length)
    (threads : M'.threads = M.threads.set i o) (log : M'.log = (i, e) :: M.log)
    (lo : e.lo? = none) (answer : e.answer? = none) (memory : M'.memory = M.memory)
    (holder : M'.holder = M.holder) (source : M'.source = M.source)
    (own : ∀ r, o = some r → ∃ p : Post, P p r (e :: share M.log i) ∧ p.Stands hi s M i)
    (ended : o = none → Q (e :: share M.log i)) (kept : M.holder = some i → o ≠ none) :
    Posted P Q hi s M' := by
  have hlos : M'.los = M.los := by simp [Machine.los, log, lo]
  have hreplies : M'.replies = M.replies := by simp [Machine.replies, log, answer]
  have hstands : ∀ {j : Nat} {p : Post}, p.Stands hi s M j → p.Stands hi s M' j := fun hp =>
    hp.congr holder (by rw [memory]) source hreplies hlos
  refine h.advance busy threads log (h.early.quiet log lo answer memory fun hnone hhi => ?_)
    (fun r hr => ?_) ended (by rwa [holder]) fun j _ => ⟨by rw [holder]; exact id, fun _ => hstands⟩
  · obtain ⟨hsource, hreplies', hlos'⟩ := h.early.free (holder ▸ hnone) (memory ▸ hhi)
    exact ⟨source.trans hsource, hreplies.trans hreplies', hlos.trans hlos'⟩
  · obtain ⟨p, hfits, hp⟩ := own r hr
    exact ⟨p, hfits, hstands hp⟩

/-- A call goes on, and nothing else has changed. -/
theorem proceed (h : Posted P Q hi s M) (busy : i < M.threads.length)
    (threads : M'.threads = M.threads.set i (some r)) (log : M'.log = (i, e) :: M.log)
    (lo : e.lo? = none) (answer : e.answer? = none) (memory : M'.memory = M.memory)
    (holder : M'.holder = M.holder) (source : M'.source = M.source)
    (own : ∃ p : Post, P p r (e :: share M.log i) ∧ p.Stands hi s M i) : Posted P Q hi s M' :=
  h.stay busy threads log lo answer memory holder source
    (fun _ hr => Option.some.inj hr ▸ own) nofun fun _ => nofun

/-- A thread has moved under the lock. -/
theorem work (h : Posted P Q hi s M) (holder : M.holder = some i) {r : Routine ε}
    (busy : i < M.threads.length) (threads : M'.threads = M.threads.set i (some r))
    (log : M'.log = (i, e) :: M.log) (early : Early hi s M')
    (kept : M'.holder = some i ∨ M'.holder = none)
    (same : M.memory.hi = hi → M'.memory.hi = hi)
    (own : ∃ p : Post, P p r (e :: share M.log i) ∧ p.Stands hi s M' i) : Posted P Q hi s M' := by
  refine h.advance busy threads log early (fun _ hr => Option.some.inj hr ▸ own) nofun
    (fun _ => nofun) fun j hj => ?_
  obtain ⟨hother, hother'⟩ := Machine.holder_ne_of_holder holder kept j hj
  exact ⟨fun heq => absurd heq hother', fun p hp => hp.of_free hother hother' same⟩

/-- Idle threads at a new generator. -/
theorem fresh (nil : Q []) (useful : hi ≠ reserved) (threads : Nat) (s : σ) :
    Posted P Q hi s (Machine.idle threads .fresh s : Machine σ ε) where
  early := ⟨rfl, .inl rfl, rfl, rfl, fun hgiven => absurd hgiven.symm useful,
    fun _ _ => ⟨rfl, rfl, rfl⟩⟩
  booked := .fresh _ nil threads .fresh s

end Posted

end

end HiLo
