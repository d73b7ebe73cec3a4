/-
HiLo.Proofs.Interleaving — what every interleaving keeps together.

Each action that the discipline allows keeps the cells and the books together
and is one of those that the other threads rely on: one lemma of each kind for
an action. `Safe.move` puts them together for one move of one thread, and
`Safe.run` follows an interleaving of any length. What they need of the calls is
only that the routine of a call is secure.
-/
import HiLo.Proofs.Discipline

namespace HiLo

variable {σ ε : Type} {c : Check} {L : Layout} {i : Nat} {V : Shared}

/-! ## Actions keep the books -/

namespace Coherent

/-- A new machine has nothing in its books. -/
theorem idle (c : Check) (L : Layout) (threads : Nat) (s : σ) :
    Coherent c L ((Machine.idle threads .fresh s : Machine σ ε).shared L) where
  hi := rfl
  version := rfl
  useful := nofun
  drawn := List.prefix_rfl
  low := show -1 ≤ (-1 : Int64).toInt by decide
  high := show (-1 : Int64).toInt + 1 ≤ 0 by decide
  started hne := absurd rfl hne
  inside := nofun
  behind := nofun
  rising := .nil
  fair := .blank L
  right := nofun
  free _ := ⟨⟨rfl, fun _ => rfl⟩, fun _ => rfl⟩

/-- A claim that comes after all others keeps the keys in order. -/
theorem claim (h : Coherent c L V) (i : Nat) (lo : Int64)
    (later : ∀ k ∈ V.ledger.issued, Later (V.ledger.block, lo) k) :
    (∀ k ∈ (V.ledger.claim L i lo).issued, k.2 < L.capacity) ∧
      (∀ k ∈ (V.ledger.claim L i lo).issued,
        k.1 < V.ledger.block ∨ k.1 = V.ledger.block ∧ k.2 ≤ lo) ∧
      (V.ledger.claim L i lo).issued.Pairwise Later ∧ (V.ledger.claim L i lo).Fair L := by
  have hbehind : ∀ k ∈ V.ledger.issued, k.1 < V.ledger.block ∨ k.1 = V.ledger.block ∧ k.2 ≤ lo := by
    intro k hk
    rcases later k hk with hlt | ⟨heq, hlt⟩
    · exact .inl hlt
    · exact .inr ⟨heq, Int64.le_of_lt hlt⟩
  have hnew : (V.ledger.block, lo) ∉ V.ledger.issued := fun hmem => by
    rcases later _ hmem with hlt | ⟨-, hlt⟩
    · exact Nat.lt_irrefl _ hlt
    · exact Int64.lt_irrefl hlt
  refine ⟨?_, ?_, ?_, h.fair.claim i fun _ => hnew⟩
  · unfold Ledger.claim
    split
    · next hlt => exact List.forall_mem_cons.mpr ⟨hlt, h.inside⟩
    · exact h.inside
  · unfold Ledger.claim
    split
    · exact List.forall_mem_cons.mpr ⟨.inr ⟨rfl, Int64.le_refl _⟩, hbehind⟩
    · exact hbehind
  · unfold Ledger.claim
    split
    · exact List.pairwise_cons.mpr ⟨later, h.rising⟩
    · exact h.rising

/-- There is a hi exactly when one was adopted. -/
theorem hi_eq_reserved_iff (h : Coherent c L V) : V.hi = reserved ↔ V.ledger.adopted = [] := by
  rw [h.hi]
  exact Ledger.published_eq_reserved_iff h.useful

theorem toInt_next (h : Coherent c L V) (room : V.ledger.bumps < 2 ^ 62) :
    (V.lo + 1).toInt = V.lo.toInt + 1 :=
  toInt_add_one (by have := h.high; omega)

/-- A lo that was just counted up is not below zero. -/
theorem next_nonneg (h : Coherent c L V) (room : V.ledger.bumps < 2 ^ 62) : 0 ≤ V.lo + 1 := by
  have hlow := h.low
  rw [Int64.le_iff_toInt_le, h.toInt_next room, show (0 : Int64).toInt = 0 from rfl]
  omega

theorem lt_next (h : Coherent c L V) (room : V.ledger.bumps < 2 ^ 62) : V.lo < V.lo + 1 := by
  rw [Int64.lt_iff_toInt_lt, h.toInt_next room]
  omega

theorem bump (h : Coherent c L V) (i : Nat) (room : V.ledger.bumps < 2 ^ 62)
    (may : V.ledger.adopted ≠ [] ∨ V.holder ≠ none) : Coherent c L (V.bump L i) := by
  have hnext := h.toInt_next room
  have hlow := h.low
  have hhigh := h.high
  obtain ⟨hinside, hbehind, hrising, hfair⟩ := h.claim i (V.lo + 1) fun k hk => by
    rcases h.behind k hk with hlt | ⟨heq, hle⟩
    · exact .inl hlt
    · exact .inr ⟨heq, Int64.lt_of_le_of_lt hle (h.lt_next room)⟩
  refine { h with low := ?_, high := ?_, started := fun _ => h.next_nonneg room,
                  inside := hinside, behind := hbehind, rising := hrising,
                  fair := { hfair with }, free := ?_ }
  · simp only [Shared.bump, hnext]
    omega
  · simp only [Shared.bump, hnext]
    omega
  · intro hfree
    obtain ⟨⟨hsettled, -⟩, heven⟩ := h.free hfree
    refine ⟨⟨hsettled, fun hnil => ?_⟩, heven⟩
    rcases may with hne | hne
    · exact absurd hnil hne
    · exact absurd hfree hne

theorem publish {hi : Int64} (h : Coherent c L V) (may : MayPublish c i hi V) :
    Coherent c L (V.publish i hi) := by
  have hpre : V.ledger.adopted <+: V.ledger.adopted ++ [hi] := List.prefix_append _ _
  refine { h with hi := ?_, useful := ?_, drawn := ?_, started := fun _ => may.started,
                  behind := ?_, fair := h.fair.adopt i hi, right := ?_, free := ?_ }
  · simp [Shared.publish, Ledger.adopt, Ledger.published]
  · intro hi' hmem
    rcases List.mem_append.mp hmem with hmem | hmem
    · exact h.useful hi' hmem
    · rw [List.mem_singleton.mp hmem]
      exact may.useful
  · simp only [Shared.publish, Ledger.adopt, may.drawn]
    exact List.prefix_rfl
  · intro k hk
    have hblock : V.ledger.block ≤ (V.publish i hi).ledger.block ∧
        (V.ledger.adopted ≠ [] → V.ledger.block < (V.publish i hi).ledger.block) := by
      rw [← List.length_pos_iff]
      simp only [Shared.publish, Ledger.adopt, Ledger.block, List.length_append,
        List.length_singleton]
      omega
    rcases h.behind k hk with hlt | ⟨heq, hle⟩
    · exact .inl (Nat.lt_of_lt_of_le hlt hblock.1)
    · by_cases hnil : V.ledger.adopted = []
      · refine .inr ⟨?_, hle⟩
        simpa [Shared.publish, Ledger.adopt, Ledger.block, hnil] using heq
      · exact .inl (heq ▸ hblock.2 hnil)
  · intro w hw
    obtain ⟨b, hticket, hadopted, hlo⟩ := h.right w hw
    obtain ⟨hlt, -⟩ := List.getElem?_eq_some_iff.mp hadopted
    exact ⟨b, hticket, by
      simp only [Shared.publish, Ledger.adopt]
      rw [List.getElem?_append_left hlt, hadopted], hlo⟩
  · intro hfree
    simp [Shared.publish, may.holder] at hfree

theorem restart {lo : Int64} (h : Coherent c L V) (may : MayRestart i lo V) :
    Coherent c L (V.restart L i lo) := by
  obtain rfl := may.zero
  have hstarted : 0 ≤ V.lo.toInt := Int64.le_iff_toInt_le.mp (h.started may.adopted)
  have hhigh := h.high
  obtain ⟨hinside, hbehind, hrising, hfair⟩ := h.claim i 0 fun k hk => .inl (may.spent k hk)
  have hzero : (V.restart L i 0).lo.toInt = 0 := rfl
  refine { h with low := by omega, high := ?_, started := fun _ => Int64.le_refl 0,
                  inside := hinside, behind := hbehind, rising := hrising, fair := hfair,
                  free := ?_ }
  · rw [hzero]
    simp only [Shared.restart, Ledger.claim]
    omega
  · intro hfree
    simp [Shared.restart, may.holder] at hfree

theorem turn (h : Coherent c L V) (hholder : V.holder = some i) : Coherent c L V.turn := by
  refine { h with version := ?_, free := ?_, fair := { h.fair with } }
  · simp only [Shared.turn, h.version, UInt64.ofNat_add]
    rfl
  · intro hfree
    simp [Shared.turn, hholder] at hfree

theorem answered (h : Coherent c L V) (r : Reply ε) (hholder : V.holder = some i) :
    Coherent c L (V.answered r) := by
  refine { h with drawn := h.drawn.trans (List.prefix_append _ _), free := ?_,
                  fair := { h.fair with } }
  intro hfree
  simp [Shared.answered, hholder] at hfree

theorem acquire (h : Coherent c L V) (i : Nat) : Coherent c L { V with holder := some i } :=
  { h with free := nofun }

theorem release (h : Coherent c L V) (hquiet : V.Quiet) (heven : V.Even c) :
    Coherent c L { V with holder := none } :=
  { h with free := fun _ => ⟨⟨hquiet.settled, hquiet.unstarted⟩, heven⟩ }

theorem forget (h : Coherent c L V) (i : Nat) :
    Coherent c L { V with ledger := V.ledger.forget i } := by
  refine { h with fair := h.fair.forget i, free := fun hfree => ?_ }
  obtain ⟨⟨hsettled, hunstarted⟩, heven⟩ := h.free hfree
  exact ⟨⟨hsettled, hunstarted⟩, heven⟩

theorem redeem (h : Coherent c L V) {hi lo : Int64}
    (hright : Win.Right L V.ledger ⟨V.ledger.tickets i, hi, lo⟩) :
    Coherent c L { V with ledger := V.ledger.redeem i hi lo } := by
  have ⟨b, hticket, _, _, hlt⟩ := hright
  refine { h with fair := h.fair.redeem hticket hlt hi lo, right := ?_, free := fun hfree => ?_ }
  · intro w hw
    rcases List.mem_cons.mp hw with rfl | hw
    · exact hright
    · exact h.right w hw
  · obtain ⟨⟨hsettled, hunstarted⟩, heven⟩ := h.free hfree
    exact ⟨⟨hsettled, hunstarted⟩, heven⟩

end Coherent

/-! ## Actions are what others rely on -/

namespace Meanwhile

variable {W : Shared}

/-- Nobody else relies on the lock that a thread holds. -/
theorem of_holder (hholder : V.holder = some i) (adopted : V.ledger.adopted <+: W.ledger.adopted)
    (turns : V.ledger.turns ≤ W.ledger.turns)
    (tickets : ∀ j ≠ i, W.ledger.tickets j = V.ledger.tickets j)
    (stable : c = .version → W.ledger.turns = V.ledger.turns → V.ledger.turns % 2 = 0 →
      W.ledger.adopted = V.ledger.adopted) : ∀ j ≠ i, Meanwhile c j V W := by
  intro j hj
  refine ⟨adopted, turns, tickets j hj, stable, fun hother => ?_⟩
  exact absurd (Option.some.inj (hother.symm.trans hholder)) hj

theorem publish {hi : Int64} (may : MayPublish c i hi V) :
    ∀ j ≠ i, Meanwhile c j V (V.publish i hi) := by
  refine of_holder may.holder (List.prefix_append _ _) (Nat.le_refl _)
    (fun j hj => Function.update_of_ne hj _ _) fun hc _ heven => ?_
  have := may.odd hc
  omega

theorem restart {lo : Int64} (may : MayRestart i lo V) :
    ∀ j ≠ i, Meanwhile c j V (V.restart L i lo) :=
  of_holder may.holder List.prefix_rfl (Nat.le_refl _)
    (fun _ hj => Function.update_of_ne hj _ _) fun _ _ _ => rfl

theorem turn (hholder : V.holder = some i) : ∀ j ≠ i, Meanwhile c j V V.turn :=
  of_holder hholder List.prefix_rfl (Nat.le_succ _) (fun _ _ => rfl) fun _ _ _ => rfl

theorem answered (r : Reply ε) (hholder : V.holder = some i) :
    ∀ j ≠ i, Meanwhile c j V (V.answered r) :=
  of_holder hholder List.prefix_rfl (Nat.le_refl _) (fun _ _ => rfl) fun _ _ _ => rfl

theorem release (hholder : V.holder = some i) :
    ∀ j ≠ i, Meanwhile c j V { V with holder := none } :=
  of_holder hholder List.prefix_rfl (Nat.le_refl _) (fun _ _ => rfl) fun _ _ _ => rfl

theorem acquire (hfree : V.holder = none) :
    ∀ j ≠ i, Meanwhile c j V { V with holder := some i } := fun _ _ =>
  ⟨List.prefix_rfl, Nat.le_refl _, rfl, fun _ _ _ => rfl, fun hj => by simp [hfree] at hj⟩

theorem bump (h : Coherent c L V) (room : V.ledger.bumps < 2 ^ 62)
    (may : V.ledger.adopted ≠ [] ∨ V.holder = some i) :
    ∀ j ≠ i, Meanwhile c j V (V.bump L i) := by
  intro j hj
  refine ⟨List.prefix_rfl, Nat.le_refl _, Function.update_of_ne hj _ _, fun _ _ _ => rfl,
    fun hholder => ⟨rfl, rfl, rfl, rfl, Int64.le_of_lt (h.lt_next room), fun hnil => ?_, ?_⟩⟩
  · -- before the first hi only the holder of the lock counts
    rcases may with hne | hi
    · exact absurd hnil hne
    · exact absurd (Option.some.inj (hholder.symm.trans hi)) hj
  · intro k hk
    simp only [Shared.bump, Ledger.claim] at hk
    split at hk
    · rcases List.mem_cons.mp hk with rfl | hk
      · exact .inr (h.lt_next room)
      · exact .inl hk
    · exact .inl hk

/-- Beginning and ending a call changes the ticket of its thread and the wins. -/
theorem of_ledger {g : Ledger} (adopted : g.adopted = V.ledger.adopted)
    (usable : g.usable = V.ledger.usable) (turns : g.turns = V.ledger.turns)
    (issued : g.issued = V.ledger.issued)
    (tickets : ∀ j ≠ i, g.tickets j = V.ledger.tickets j) :
    ∀ j ≠ i, Meanwhile c j V { V with ledger := g } := fun j hj =>
  ⟨adopted ▸ List.prefix_rfl, Nat.le_of_eq turns.symm, tickets j hj, fun _ _ _ => adopted, fun _ =>
    ⟨rfl, adopted, usable, turns, Int64.le_refl _, fun _ => rfl, fun _ hk => .inl (issued ▸ hk)⟩⟩

theorem forget : ∀ j ≠ i, Meanwhile c j V { V with ledger := V.ledger.forget i } :=
  of_ledger rfl rfl rfl rfl fun _ hj => Function.update_of_ne hj _ _

theorem redeem (hi lo : Int64) :
    ∀ j ≠ i, Meanwhile c j V { V with ledger := V.ledger.redeem i hi lo } :=
  of_ledger rfl rfl rfl rfl fun _ hj => Function.update_of_ne hj _ _

end Meanwhile

/-! ## Moves -/

/-- The cells and the books belong together, and every call goes on in
security. -/
structure Safe (c : Check) (L : Layout) (M : Machine σ ε) : Prop where
  coherent : Coherent c L (M.shared L)
  secure {i : Nat} {r : Routine ε} (busy : M.threads[i]? = some (some r)) :
    Secure c L i r (M.shared L)

namespace Safe

variable {M M' : Machine σ ε}

theorem idle (c : Check) (L : Layout) (threads : Nat) (s : σ) :
    Safe c L (Machine.idle threads .fresh s : Machine σ ε) where
  coherent := .idle c L threads s
  secure busy := by
    simp only [Machine.idle] at busy
    rw [List.getElem?_replicate] at busy
    split at busy <;> cases busy

/-- A thread has moved: its action kept the books, the others may rely on it, and
what is left of its call is secure. -/
theorem advance (h : Safe c L M) {o : Option (Routine ε)}
    (threads : M'.threads = M.threads.set i o) (coherent : Coherent c L (M'.shared L))
    (others : ∀ j ≠ i, Meanwhile c j (M.shared L) (M'.shared L))
    (own : ∀ r, o = some r → Secure c L i r (M'.shared L)) : Safe c L M' := by
  refine ⟨coherent, fun {j r} busy => ?_⟩
  rw [threads, List.getElem?_set] at busy
  by_cases hj : i = j
  · subst hj
    rw [if_pos rfl] at busy
    split at busy
    · exact own r (Option.some.inj busy)
    · cases busy
  · rw [if_neg hj] at busy
    exact (h.secure busy).meanwhile (others j (Ne.symm hj))

/-- A thread has moved, and the cells and the books are as before. -/
theorem stay (h : Safe c L M) {o : Option (Routine ε)}
    (threads : M'.threads = M.threads.set i o) (shared : M'.shared L = M.shared L)
    (own : ∀ r, o = some r → Secure c L i r (M.shared L)) : Safe c L M' :=
  h.advance threads (shared ▸ h.coherent) (fun j _ => shared ▸ .refl c j _) (shared ▸ own)

/-- **One action of one thread keeps the machine safe.** -/
theorem act {A : Arena σ ε} {r : Routine ε} (granted : Granted c (M.shared L).ledger)
    (h : Safe c L M) (busy : M.threads[i]? = some (some r)) (hact : A.act M i r = some M') :
    Safe c L M' := by
  have hsecure := h.secure busy
  have here : Resumes c L i (M.shared L) (M.shared L) := ⟨.refl c i _, h.coherent, granted⟩
  cases r with
  | finish e =>
    obtain rfl := Option.some.inj hact
    cases e with
    | claimed hi lo =>
      exact h.advance rfl (h.coherent.redeem (hsecure _ here hi lo rfl)) (.redeem hi lo) nofun
    | failed f => exact h.advance rfl (h.coherent.forget i) .forget nofun
    | crashed text => exact h.advance rfl (h.coherent.forget i) .forget nofun
    | unsettled => exact h.advance rfl (h.coherent.forget i) .forget nofun
  | note n rest =>
    obtain rfl := Option.some.inj hact
    exact h.stay rfl rfl fun r hr => Option.some.inj hr ▸ hsecure
  | readHi rest =>
    obtain rfl := Option.some.inj hact
    exact h.stay rfl rfl fun r hr => Option.some.inj hr ▸ hsecure _ here
  | readLo rest =>
    obtain rfl := Option.some.inj hact
    exact h.stay rfl rfl fun r hr => Option.some.inj hr ▸ hsecure _ here
  | readVersion rest =>
    obtain rfl := Option.some.inj hact
    exact h.stay rfl rfl fun r hr => Option.some.inj hr ▸ hsecure _ here
  | writeHi hi rest =>
    obtain rfl := Option.some.inj hact
    obtain ⟨may, hrest⟩ := hsecure _ here
    exact h.advance rfl (h.coherent.publish may) (.publish may) fun r hr =>
      Option.some.inj hr ▸ hrest
  | writeLo lo rest =>
    obtain rfl := Option.some.inj hact
    obtain ⟨may, hrest⟩ := hsecure _ here
    exact h.advance rfl (h.coherent.restart may) (.restart may) fun r hr =>
      Option.some.inj hr ▸ hrest
  | bumpLo rest =>
    obtain rfl := Option.some.inj hact
    obtain ⟨may, hrest⟩ := hsecure _ here
    refine h.advance rfl (h.coherent.bump i granted.bumps ?_)
      (.bump h.coherent granted.bumps may) fun r hr => Option.some.inj hr ▸ hrest
    exact may.imp_right fun hholder => by simp [hholder]
  | bumpVersion rest =>
    obtain rfl := Option.some.inj hact
    obtain ⟨hholder, hrest⟩ := hsecure _ here
    exact h.advance rfl (h.coherent.turn hholder) (.turn hholder) fun r hr =>
      Option.some.inj hr ▸ hrest
  | acquire rest =>
    simp only [Arena.act] at hact
    split at hact
    · cases hact
    · next hfree =>
      split at hact
      · -- a spoiled lock refuses the call, which ends without a pair
        obtain rfl := Option.some.inj hact
        refine h.stay rfl rfl fun r hr => ?_
        obtain rfl := Option.some.inj hr
        exact fun _ _ _ _ he => nomatch he
      · obtain rfl := Option.some.inj hact
        exact h.advance rfl (h.coherent.acquire i) (.acquire hfree) fun r hr =>
          Option.some.inj hr ▸ hsecure _ here hfree
  | release crashed rest =>
    obtain rfl := Option.some.inj hact
    obtain ⟨hholder, hquiet, heven, hrest⟩ := hsecure _ here
    exact h.advance rfl (h.coherent.release hquiet heven) (.release hholder) fun r hr =>
      Option.some.inj hr ▸ hrest
  | draw rest =>
    obtain rfl := Option.some.inj hact
    cases hr : (A.source.next M.source).1.isReserved with
    | true =>
      exact h.stay rfl (Shared.answered_of_reserved (M.shared L) hr) fun r hr' =>
        Option.some.inj hr' ▸ hsecure
    | false =>
      obtain ⟨hholder, hrest⟩ := hsecure _ here _ hr
      exact h.advance rfl (h.coherent.answered _ hholder) (.answered _ hholder) fun r hr' =>
        Option.some.inj hr' ▸ hrest

/-- **One move of one thread keeps the machine safe.** -/
theorem move {A : Arena σ ε} (call : ∀ i V, Secure c L i A.call V)
    (granted : Granted c (M.shared L).ledger) (h : Safe c L M) (hmove : A.move M i = some M') :
    Safe c L M' := by
  unfold Arena.move at hmove
  split at hmove
  · cases hmove
  · obtain rfl := Option.some.inj hmove
    exact h.advance rfl (h.coherent.forget i) .forget fun r hr => Option.some.inj hr ▸ call i _
  · next hbusy => exact h.act granted hbusy hmove

end Safe

/-! ## Interleavings -/

/-- A move enters one event: an answer of the source, or something that leaves the
source alone. -/
theorem Arena.exists_event {A : Arena σ ε} {M M' : Machine σ ε} (h : A.move M i = some M') :
    ∃ e, M'.log = (i, e) :: M.log ∧
      ((M'.source = M.source ∧ ∀ r, e ≠ .did (.asked r)) ∨
        (M'.source = (A.source.next M.source).2 ∧
          e = .did (.asked (A.source.next M.source).1))) := by
  unfold Arena.move at h
  split at h
  · cases h
  · obtain rfl := Option.some.inj h
    exact ⟨_, rfl, .inl ⟨rfl, nofun⟩⟩
  · next r hbusy =>
    cases r with
    | draw rest =>
      obtain rfl := Option.some.inj h
      exact ⟨_, rfl, .inr ⟨rfl, rfl⟩⟩
    | acquire rest =>
      simp only [Arena.act] at h
      split at h
      · cases h
      · split at h
        · obtain rfl := Option.some.inj h
          exact ⟨_, rfl, .inl ⟨rfl, nofun⟩⟩
        · obtain rfl := Option.some.inj h
          exact ⟨_, rfl, .inl ⟨rfl, nofun⟩⟩
    | _ =>
      obtain rfl := Option.some.inj h
      exact ⟨_, rfl, .inl ⟨rfl, nofun⟩⟩

theorem Arena.grows_move {A : Arena σ ε} {M M' : Machine σ ε} (L : Layout)
    (h : A.move M i = some M') : Ledger.Grows (M.shared L).ledger (M'.shared L).ledger := by
  obtain ⟨e, he, -⟩ := exists_event h
  simp only [Machine.shared, he, Ledger.ofLog]
  exact Ledger.grows_book L i _ e

theorem Arena.grows_run {A : Arena σ ε} (L : Layout) :
    ∀ {sched : List Nat} {M M' : Machine σ ε}, A.run M sched = some M' →
      Ledger.Grows (M.shared L).ledger (M'.shared L).ledger
  | [], M, M', h => by
    obtain rfl := Option.some.inj h
    exact .refl _
  | i :: sched, M, M', h => by
    obtain ⟨M₁, hmove, hrun⟩ := Option.bind_eq_some_iff.mp h
    exact (grows_move L hmove).trans (grows_run L hrun)

/-- The log grows by one event with every move. -/
theorem Arena.exists_log_run {A : Arena σ ε} :
    ∀ {sched : List Nat} {M M' : Machine σ ε}, A.run M sched = some M' →
      ∃ es, M'.log = es ++ M.log ∧ es.length = sched.length
  | [], M, M', h => by
    obtain rfl := Option.some.inj h
    exact ⟨[], rfl, rfl⟩
  | i :: sched, M, M', h => by
    obtain ⟨M₁, hmove, hrun⟩ := Option.bind_eq_some_iff.mp h
    obtain ⟨e, he, -⟩ := exists_event hmove
    obtain ⟨es, hes, hlength⟩ := exists_log_run hrun
    exact ⟨es ++ [(i, e)], by simp [hes, he], by simp [hlength]⟩

/-- The usable answers in the books are those that the source has given. -/
theorem Arena.usable_run {A : Arena σ ε} (L : Layout) (s : σ) :
    ∀ {sched : List Nat} {M M' : Machine σ ε} {n : Nat}, A.run M sched = some M' →
      M.source = A.source.after n s → (Ledger.ofLog L M.log).usable = A.source.usables n s →
      ∃ n', M'.source = A.source.after n' s ∧
        (Ledger.ofLog L M'.log).usable = A.source.usables n' s
  | [], M, M', n, h, hsource, husable => by
    obtain rfl := Option.some.inj h
    exact ⟨n, hsource, husable⟩
  | i :: sched, M, M', n, h, hsource, husable => by
    obtain ⟨M₁, hmove, hrun⟩ := Option.bind_eq_some_iff.mp h
    obtain ⟨e, he, ⟨hsource', hother⟩ | ⟨hsource', rfl⟩⟩ := exists_event hmove
    · refine usable_run L s hrun (hsource'.trans hsource) ?_
      rw [he, Ledger.ofLog, Ledger.usable_book hother, husable]
    · refine usable_run L s (n := n + 1) hrun ?_ ?_
      · rw [hsource', hsource]
        exact A.source.after_add 1 n s
      · rw [he, Source.usables_succ, ← husable, hsource]
        rfl

/-- **Every interleaving keeps the machine safe**, if the routine of a call is
secure. -/
theorem Safe.run {A : Arena σ ε} (call : ∀ i V, Secure c L i A.call V) :
    ∀ {sched : List Nat} {M M' : Machine σ ε}, Granted c (M'.shared L).ledger → Safe c L M →
      A.run M sched = some M' → Safe c L M'
  | [], M, M', _, h, hrun => by
    obtain rfl := Option.some.inj hrun
    exact h
  | i :: sched, M, M', granted, h, hrun => by
    obtain ⟨M₁, hmove, hrest⟩ := Option.bind_eq_some_iff.mp hrun
    have hgrows := Arena.grows_run L hrest
    have granted₁ := granted.of_grows hgrows
    exact Safe.run call granted
      (h.move call (granted₁.of_grows (Arena.grows_move L hmove)) hmove) hrest

end HiLo
