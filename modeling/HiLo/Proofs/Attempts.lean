/-
HiLo.Proofs.Attempts — the calls of both designs keep to the discipline.

One lemma for each part of a call. Under the lock hi, the version and the books
stay as they are, and lo is only counted up by others; between the two stores of
a rollover that is enough to keep every lo outside the block, so nothing is
issued there.

Without the lock a thread knows less. A claimed lo belongs to the block that was
current at its claim, and the check after it says whether the hi that was read
before is the hi of that block. With two looks at hi this holds because equal
looks at values that do not repeat have no adoption in between
(`eq_of_prefix_of_getLast?`); with a version, because nothing is published while
the version stays at the stamp (`Stamp`).
-/
import HiLo.Proofs.Draws
import HiLo.Proofs.Interleaving

namespace HiLo

variable {ε : Type} {c : Check} {L : Layout} {i : Nat} {V W : Shared}

/-! ## Ends of calls -/

theorem Win.Right.meanwhile {hi lo : Int64} (hm : Meanwhile c i V W)
    (h : Win.Right L V.ledger ⟨V.ledger.tickets i, hi, lo⟩) :
    Win.Right L W.ledger ⟨W.ledger.tickets i, hi, lo⟩ := by
  obtain ⟨b, hticket, hadopted, hlo⟩ := h
  obtain ⟨hlt, -⟩ := List.getElem?_eq_some_iff.mp hadopted
  obtain ⟨more, hmore⟩ := hm.adopted
  refine ⟨b, by rw [hm.ticket, hticket], ?_, hlo⟩
  rw [← hmore, List.getElem?_append_left hlt, hadopted]

theorem Secure.failed (f : Failure ε) : Secure c L i (.finish (.failed f)) V := by
  rintro W - hi lo he
  cases he

theorem Secure.crashed (text : String) :
    Secure c L i (.finish (.crashed text) : Routine ε) V := by
  rintro W - hi lo he
  cases he

theorem Secure.claimed {hi lo : Int64}
    (h : Win.Right L V.ledger ⟨V.ledger.tickets i, hi, lo⟩) :
    Secure c L i (.finish (.claimed hi lo) : Routine ε) V := by
  rintro W hW _ _ ⟨⟩
  exact h.meanwhile hW.meanwhile

/-- The hi of the current block, if there is one. -/
theorem Ledger.getLast?_of_published {g : Ledger} {hi : Int64} (h : g.published = hi)
    (hne : hi ≠ reserved) : g.adopted.getLast? = some hi := by
  unfold published at h
  cases hlast : g.adopted.getLast? with
  | none => exact absurd (by rw [← h, hlast]; rfl) hne
  | some x => rw [← h, hlast]; rfl

/-- A ticket of the current block with its hi may end a call. -/
theorem Win.Right.of_block {g : Ledger} {i : Nat} {hi lo : Int64}
    (ticket : g.tickets i = some ⟨g.block, hi, lo⟩) (hlast : g.adopted.getLast? = some hi)
    (nonneg : 0 ≤ lo) (inside : lo < L.capacity) : Win.Right L g ⟨g.tickets i, hi, lo⟩ :=
  ⟨g.block, ticket, by rw [Ledger.block, ← List.getLast?_eq_getElem?, hlast], nonneg, inside⟩

/-! ## Under the lock -/

namespace Working

theorem beside (h : Working c i V) (hb : Beside V W) : Working c i W :=
  ⟨hb.holder.trans h.holder, hb.odd h.odd⟩

end Working

theorem Pending.beside {hi : Int64} (h : Pending c i hi V) (hb : Beside V W) :
    Pending c i hi W where
  toWorking := h.toWorking.beside hb
  useful := h.useful
  drawn := by rw [hb.usable, hb.adopted, h.drawn]

/-- What a thread knows under the lock survives until it moves again. -/
theorem Resumes.beside (h : Resumes c L i V W) (hw : Working c i V) : Beside V W :=
  h.meanwhile.beside hw.holder

/-- The lock is left with nothing pending; what follows knows the books as they
were. -/
theorem leave_secure {rest : Routine ε} {crashed : Bool} (h : Working c i V) (hquiet : V.Quiet)
    (hrest : ∀ W, W.ledger.adopted = V.ledger.adopted →
      W.ledger.tickets i = V.ledger.tickets i → Secure c L i rest W) :
    Secure c L i (c.leave crashed rest) V := by
  cases c with
  | reread =>
    intro W hW
    have hb := hW.beside h
    exact ⟨hb.holder.trans h.holder, hb.quiet hquiet, nofun,
      hrest _ hb.adopted hW.meanwhile.ticket⟩
  | version =>
    intro W hW
    have hb := hW.beside h
    refine ⟨hb.holder.trans h.holder, fun X hX => ?_⟩
    have hb' : Beside W.turn X := hX.meanwhile.beside (hb.holder.trans h.holder)
    have hquiet' : W.turn.Quiet := ⟨(hb.quiet hquiet).settled, (hb.quiet hquiet).unstarted⟩
    refine ⟨hb'.holder.trans (hb.holder.trans h.holder), hb'.quiet hquiet', fun hc => ?_,
      hrest _ (hb'.adopted.trans hb.adopted) (hX.meanwhile.ticket.trans hW.meanwhile.ticket)⟩
    have hodd := hb.odd h.odd hc
    have hturns : X.ledger.turns = W.ledger.turns + 1 := hb'.turns
    omega

theorem drawThen_secure {adopt : Int64 → Routine ε} (h : Working c i V) (hquiet : V.Quiet)
    (hadopt : ∀ W hi, Beside V W → Pending c i hi (W.answered (.value hi : Reply ε)) →
      Secure c L i (adopt hi) (W.answered (.value hi : Reply ε))) :
    Secure c L i (c.drawThen adopt) V := by
  intro W hW r hr
  have hb := hW.beside h
  have hw := h.beside hb
  refine ⟨hw.holder, ?_⟩
  -- only a value is an answer for the books
  have hsame : ∀ {r : Reply ε}, r.usable? = none →
      (W.answered r).Quiet ∧ Working c i (W.answered r) := by
    intro r hnone
    rw [Shared.answered_of_usable? W hnone]
    exact ⟨hb.quiet hquiet, hw⟩
  cases r with
  | value hi =>
    have hne : hi ≠ reserved := Reply.isReserved_value.mp hr
    refine hadopt W hi hb ⟨⟨hw.holder, hw.odd⟩, hne, ?_⟩
    simp [Shared.answered, Reply.usable?, hne, (hb.quiet hquiet).settled]
  | failure cause =>
    obtain ⟨hquiet', hw'⟩ := hsame (r := .failure cause) rfl
    exact leave_secure hw' hquiet' fun _ _ _ => Secure.failed (.source cause)
  | crash text =>
    obtain ⟨hquiet', hw'⟩ := hsame (r := .crash text) rfl
    exact leave_secure hw' hquiet' fun _ _ _ => Secure.crashed text

/-! ### The first block -/

theorem publishFirst_secure {hi lo : Int64} (h : Pending c i hi V)
    (hnil : V.ledger.adopted = []) (hticket : V.ledger.tickets i = some ⟨0, reserved, lo⟩)
    (hlo : V.lo = lo) (nonneg : 0 ≤ lo) (inside : lo < L.capacity) :
    Secure c L i (c.publishFirst hi lo : Routine ε) V := by
  intro W hW
  have hb := hW.beside h.toWorking
  have hp := h.beside hb
  have hnil' : W.ledger.adopted = [] := hb.adopted.trans hnil
  refine ⟨⟨hp, ?_⟩, ?_⟩
  · rw [hb.unstarted hnil, hlo]
    exact nonneg
  · have hadopted : (W.publish i hi).ledger.adopted = [hi] := by
      simp [Shared.publish, Ledger.adopt, hnil']
    have hown : (W.publish i hi).ledger.tickets i = some ⟨0, hi, lo⟩ := by
      simp [Shared.publish, Ledger.adopt, hW.meanwhile.ticket, hticket, Ticket.publish]
    refine leave_secure ⟨hp.holder, hp.odd⟩ ⟨hp.drawn, fun hnone => ?_⟩ fun X hX hX' => ?_
    · rw [hadopted] at hnone
      cases hnone
    · refine Secure.claimed (Win.Right.of_block ?_ ?_ nonneg inside)
      · rw [hX', hown, Ledger.block, hX, hadopted]
        rfl
      · rw [hX, hadopted]
        rfl

theorem claimFirst_secure {hi : Int64} (h : Pending c i hi V) (hnil : V.ledger.adopted = [])
    (hlo : V.lo = -1) : Secure c L i (c.claimFirst hi : Routine ε) V := by
  intro W hW
  have hb := hW.beside h.toWorking
  have hp := h.beside hb
  have hnil' : W.ledger.adopted = [] := hb.adopted.trans hnil
  have hzero : W.lo + 1 = 0 := by
    rw [hb.unstarted hnil, hlo]
    rfl
  refine ⟨.inr hp.holder, ?_⟩
  refine publishFirst_secure ⟨⟨hp.holder, hp.odd⟩, hp.useful, hp.drawn⟩ hnil' ?_ rfl ?_ ?_
  · simp [Shared.bump, Ledger.claim, Ledger.block, Ledger.published, hnil']
  · rw [hzero]
    exact Int64.le_refl 0
  · rw [hzero]
    exact L.positive

/-! ### Later blocks -/

/-- Between the two stores of a rollover lo stays outside the block, so nothing of
the new block is issued. -/
theorem restart_secure {hi : Int64} (h : Working c i V)
    (hsettled : V.ledger.usable = V.ledger.adopted)
    (hlast : V.ledger.adopted.getLast? = some hi)
    (hspent : ∀ k ∈ V.ledger.issued, k.1 < V.ledger.block) (hlo : L.capacity ≤ V.lo) :
    Secure c L i (c.restart hi : Routine ε) V := by
  intro W hW
  have hb := hW.beside h
  have hw := h.beside hb
  have hne : W.ledger.adopted ≠ [] := fun hnil => by
    rw [← hb.adopted, hnil] at hlast
    cases hlast
  have hspent' : ∀ k ∈ W.ledger.issued, k.1 < W.ledger.block := by
    intro k hk
    rcases hb.issued k hk with hk' | hlt
    · rw [Ledger.block, hb.adopted]
      exact hspent k hk'
    · have hin := hW.coherent.inside k hk
      exact absurd (Int64.lt_of_le_of_lt hlo hlt) (Int64.not_lt.mpr (Int64.le_of_lt hin))
  refine ⟨⟨hw.holder, rfl, hne, hspent'⟩, ?_⟩
  have hlast' : (W.restart L i 0).ledger.adopted.getLast? = some hi := by
    simp only [Shared.restart, Ledger.claim]
    rw [hb.adopted, hlast]
  have hown : (W.restart L i 0).ledger.tickets i = some ⟨W.ledger.block, hi, 0⟩ := by
    simp [Shared.restart, Ledger.claim, Ledger.published, hb.adopted, hlast]
  refine leave_secure ⟨hw.holder, hw.odd⟩ ⟨?_, fun hnil => absurd hnil hne⟩ fun X hX hX' => ?_
  · simp only [Shared.restart, Ledger.claim]
    rw [hb.usable, hb.adopted, hsettled]
  · refine Secure.claimed (Win.Right.of_block ?_ ?_ (Int64.le_refl 0) L.positive)
    · rw [hX', hown, Ledger.block, Ledger.block, hX]
      rfl
    · rw [hX, hlast']

theorem publish_secure {hi : Int64} (h : Pending c i hi V) (hne : V.ledger.adopted ≠ [])
    (hlo : L.capacity ≤ V.lo) : Secure c L i (c.publish hi : Routine ε) V := by
  intro W hW
  have hb := hW.beside h.toWorking
  have hp := h.beside hb
  have hlo' : L.capacity ≤ W.lo := Int64.le_trans hlo hb.lo
  have hne' : W.ledger.adopted ≠ [] := hb.adopted ▸ hne
  refine ⟨⟨hp, hW.coherent.started hne'⟩, ?_⟩
  refine restart_secure ⟨hp.holder, hp.odd⟩ hp.drawn ?_ (fun k hk => ?_) hlo'
  · simp [Shared.publish, Ledger.adopt]
  · have hlen := List.length_pos_iff.mpr hne'
    have hblock : (W.publish i hi).ledger.block = W.ledger.block + 1 := by
      simp only [Shared.publish, Ledger.adopt, Ledger.block, List.length_append,
        List.length_singleton]
      omega
    rw [hblock]
    rcases hW.coherent.behind k hk with hlt | ⟨heq, -⟩
    · omega
    · omega

theorem claimNext_secure {hi : Int64} (h : Working c i V) (hquiet : V.Quiet)
    (hlast : V.ledger.adopted.getLast? = some hi) :
    Secure c L i (c.claimNext L hi : Routine ε) V := by
  intro W hW
  have hb := hW.beside h
  have hw := h.beside hb
  have hlast' : W.ledger.adopted.getLast? = some hi := hb.adopted ▸ hlast
  have hne : W.ledger.adopted ≠ [] := fun hnil => by
    rw [hnil] at hlast'
    cases hlast'
  have hw' : Working c i (W.bump L i) := ⟨hw.holder, hw.odd⟩
  have hquiet' : (W.bump L i).Quiet := ⟨(hb.quiet hquiet).settled, fun hnil => absurd hnil hne⟩
  refine ⟨.inl hne, ?_⟩
  dsimp only
  split
  · next hcap =>
    -- the block is used up
    refine drawThen_secure hw' hquiet' fun X hi' hbX hpending => ?_
    refine publish_secure hpending ?_ (Int64.le_trans hcap hbX.lo)
    show X.ledger.adopted ≠ []
    rw [hbX.adopted]
    exact hne
  · next hcap =>
    refine leave_secure hw' hquiet' fun X hX hX' => ?_
    refine Secure.claimed (Win.Right.of_block ?_ (by rw [hX]; exact hlast')
      (hW.coherent.next_nonneg hW.granted.bumps) (Int64.not_le.mp hcap))
    rw [hX', Ledger.block, hX]
    simp [Shared.bump, Ledger.claim, Ledger.published, hlast', Ledger.block]

/-! ### The whole section -/

theorem work_secure (h : Working c i V) (hquiet : V.Quiet) :
    Secure c L i (c.work L : Routine ε) V := by
  intro W hW
  have hb := hW.beside h
  have hw := h.beside hb
  dsimp only
  split
  · next hnone =>
    have hnil : W.ledger.adopted = [] := hW.coherent.hi_eq_reserved_iff.mp hnone
    refine drawThen_secure hw (hb.quiet hquiet) fun X hi hbX hpending => ?_
    refine claimFirst_secure hpending (hbX.adopted.trans hnil) ?_
    show X.lo = -1
    rw [hbX.unstarted hnil, (hb.quiet hquiet).unstarted hnil]
  · next hsome =>
    exact claimNext_secure hw (hb.quiet hquiet)
      (Ledger.getLast?_of_published hW.coherent.hi.symm hsome)

/-- **The exclusive section is secure**, whatever was known before. -/
theorem exclusive_secure (V : Shared) : Secure c L i (c.exclusive L : Routine ε) V := by
  intro W hW hfree
  obtain ⟨hquiet, heven⟩ := hW.coherent.free hfree
  cases c with
  | reread =>
    exact work_secure ⟨rfl, nofun⟩ ⟨hquiet.settled, hquiet.unstarted⟩
  | version =>
    intro X hX
    have hb : Beside { W with holder := some i } X := hX.meanwhile.beside rfl
    have hquiet' : X.Quiet := hb.quiet ⟨hquiet.settled, hquiet.unstarted⟩
    refine ⟨hb.holder, work_secure ⟨hb.holder, fun hc => ?_⟩ ⟨hquiet'.settled, hquiet'.unstarted⟩⟩
    have heven' := heven hc
    have hturns : X.ledger.turns = W.ledger.turns := hb.turns
    show (X.ledger.turns + 1) % 2 = 1
    omega

/-! ## Two looks at hi -/

/-- A prefix of a list without repetition that ends alike is the whole list. -/
theorem eq_of_prefix_of_getLast? {α : Type} {xs ys : List α} {a : α} (h : xs <+: ys)
    (hnodup : ys.Nodup) (hx : xs.getLast? = some a) (hy : ys.getLast? = some a) : xs = ys := by
  obtain ⟨zs, rfl⟩ := h
  rcases List.eq_nil_or_concat zs with rfl | ⟨zs, z, rfl⟩
  · simp
  · have hz : z = a := by simpa [← List.append_assoc] using hy
    have hmem : a ∈ xs := List.mem_of_getLast? hx
    exact absurd hz.symm ((List.nodup_append.mp hnodup).2.2 a hmem z (by simp))

namespace Optimistic

variable {n : Nat} {hi : Int64}

theorem confirm_secure {lo : Int64} {seen : List Int64}
    (hrest : ∀ V, Secure .reread L i (attempt L n : Routine ε) V)
    (hseen : seen <+: V.ledger.adopted) (hlast : seen.getLast? = some hi)
    (hticket : V.ledger.tickets i = some ⟨V.ledger.block, V.ledger.published, lo⟩)
    (nonneg : 0 ≤ lo) (inside : lo < L.capacity) :
    Secure .reread L i (confirm L n hi lo : Routine ε) V := by
  intro W hW
  dsimp only
  split
  · next hagain =>
    have hpre := hW.meanwhile.adopted
    have hne : hi ≠ reserved := by
      refine hW.coherent.useful hi (hpre.subset (hseen.subset ?_))
      exact List.mem_of_getLast? hlast
    have hlastW : W.ledger.adopted.getLast? = some hi :=
      Ledger.getLast?_of_published (hW.coherent.hi.symm.trans hagain) hne
    -- nothing was adopted between the two looks
    have hnodup : W.ledger.adopted.Nodup :=
      (hW.granted.distinct rfl).sublist hW.coherent.drawn.sublist
    have hsame : seen = W.ledger.adopted :=
      eq_of_prefix_of_getLast? (hseen.trans hpre) hnodup hlast hlastW
    have hsameV : V.ledger.adopted = W.ledger.adopted := by
      refine hpre.eq_of_length_le ?_
      rw [← hsame]
      exact hseen.length_le
    refine Secure.claimed (Win.Right.of_block ?_ hlastW nonneg inside)
    rw [hW.meanwhile.ticket, hticket, Ledger.block, Ledger.published, hsameV, hlastW]
    rfl
  · exact hrest W

theorem claim_secure (hrest : ∀ V, Secure .reread L i (attempt L n : Routine ε) V)
    (hlast : V.ledger.adopted.getLast? = some hi) :
    Secure .reread L i (claim L n hi : Routine ε) V := by
  intro W hW
  have hpre := hW.meanwhile.adopted
  refine ⟨.inl fun hnil => ?_, ?_⟩
  · have hmem := hpre.subset (List.mem_of_getLast? hlast)
    rw [hnil] at hmem
    cases hmem
  · dsimp only
    split
    · exact exclusive_secure (W.bump L i)
    · next hcap =>
      refine confirm_secure hrest hpre hlast ?_
        (hW.coherent.next_nonneg hW.granted.bumps) (Int64.not_le.mp hcap)
      simp [Shared.bump, Ledger.claim, Ledger.block, Ledger.published]

/-- **An attempt that looks twice is secure.** -/
theorem attempt_secure (n : Nat) : ∀ V, Secure .reread L i (attempt L n : Routine ε) V := by
  induction n with
  | zero => exact exclusive_secure
  | succ n ih =>
    intro V W hW
    dsimp only
    split
    · exact exclusive_secure W
    · next hsome =>
      exact claim_secure ih (Ledger.getLast?_of_published hW.coherent.hi.symm hsome)

theorem routine_secure (attempts : UInt32) (V : Shared) :
    Secure .reread L i (routine L attempts : Routine ε) V :=
  attempt_secure attempts.toNat V

end Optimistic

/-! ## A stamp -/

/-- What a thread knows by an even stamp: as long as the version is still at the stamp,
the hi values adopted are those of then. -/
structure Stamp (stamp : UInt64) (seen : List Int64) (V : Shared) : Prop where
  even : stamp.toNat % 2 = 0
  le : stamp.toNat ≤ V.ledger.turns
  same : V.ledger.turns = stamp.toNat → V.ledger.adopted = seen

namespace Stamp

variable {stamp : UInt64} {seen : List Int64}

/-- If the version is at the stamp later, it is at the stamp now. -/
theorem turns_eq (h : Stamp stamp seen V) (hm : Meanwhile .version i V W)
    (hturns : W.ledger.turns = stamp.toNat) : V.ledger.turns = stamp.toNat :=
  Nat.le_antisymm (hturns ▸ hm.turns) h.le

theorem meanwhile (h : Stamp stamp seen V) (hm : Meanwhile .version i V W) :
    Stamp stamp seen W where
  even := h.even
  le := Nat.le_trans h.le hm.turns
  same hturns := by
    have hV := h.turns_eq hm hturns
    rw [hm.stable rfl (hturns.trans hV.symm) (hV ▸ h.even), h.same hV]

end Stamp

/-- The version counts the turns as long as they fit into it. -/
theorem Resumes.toNat_version (h : Resumes .version L i V W) :
    W.version.toNat = W.ledger.turns := by
  have hturns := h.granted.turns rfl
  rw [h.coherent.version]
  exact UInt64.toNat_ofNat_of_lt (Nat.lt_trans hturns (by decide))

namespace Stamped

variable {n : Nat} {stamp : UInt64} {seen : List Int64} {hi : Int64}

theorem confirm_secure {lo : Int64}
    (hrest : ∀ V, Secure .version L i (attempt L n : Routine ε) V) (h : Stamp stamp seen V)
    (hlast : seen.getLast? = some hi)
    (hticket : V.ledger.tickets i = some ⟨V.ledger.block, V.ledger.published, lo⟩)
    (nonneg : 0 ≤ lo) (inside : lo < L.capacity) :
    Secure .version L i (confirm L n stamp hi lo : Routine ε) V := by
  intro W hW
  dsimp only
  split
  · next hlater =>
    have hturns : W.ledger.turns = stamp.toNat := by rw [← hW.toNat_version, hlater]
    have hseen := h.same (h.turns_eq hW.meanwhile hturns)
    have hseenW := (h.meanwhile hW.meanwhile).same hturns
    refine Secure.claimed (Win.Right.of_block ?_ (by rw [hseenW, hlast]) nonneg inside)
    rw [hW.meanwhile.ticket, hticket, Ledger.block, Ledger.block, Ledger.published, hseenW, hseen,
      hlast]
    rfl
  · exact hrest W

theorem claim_secure (hrest : ∀ V, Secure .version L i (attempt L n : Routine ε) V)
    (h : Stamp stamp seen V) (hlast : seen.getLast? = some hi) (hne : V.ledger.adopted ≠ []) :
    Secure .version L i (claim L n stamp hi : Routine ε) V := by
  intro W hW
  have hW' := h.meanwhile hW.meanwhile
  refine ⟨.inl fun hnil => hne ?_, ?_⟩
  · exact List.prefix_nil.mp (hnil ▸ hW.meanwhile.adopted)
  · dsimp only
    split
    · exact exclusive_secure (W.bump L i)
    · next hcap =>
      refine confirm_secure hrest ⟨hW'.even, hW'.le, hW'.same⟩ hlast ?_
        (hW.coherent.next_nonneg hW.granted.bumps) (Int64.not_le.mp hcap)
      simp [Shared.bump, Ledger.claim, Ledger.block, Ledger.published]

theorem check_secure (hrest : ∀ V, Secure .version L i (attempt L n : Routine ε) V)
    (h : Stamp stamp seen V)
    (hlast : V.ledger.turns = stamp.toNat → seen.getLast? = some hi) :
    Secure .version L i (check L n stamp hi : Routine ε) V := by
  intro W hW
  dsimp only
  split
  · exact hrest W
  · next hbefore =>
    have hturns : W.ledger.turns = stamp.toNat := by
      rw [← hW.toNat_version, not_not.mp hbefore]
    have hW' := h.meanwhile hW.meanwhile
    have hlast' := hlast (h.turns_eq hW.meanwhile hturns)
    refine claim_secure hrest hW' hlast' fun hnil => ?_
    rw [← hW'.same hturns, hnil] at hlast'
    cases hlast'

theorem look_secure (hrest : ∀ V, Secure .version L i (attempt L n : Routine ε) V)
    (h : Stamp stamp seen V) : Secure .version L i (look L n stamp : Routine ε) V := by
  intro W hW
  dsimp only
  split
  · exact exclusive_secure W
  · next hsome =>
    have hW' := h.meanwhile hW.meanwhile
    refine check_secure hrest hW' fun hturns => ?_
    rw [← hW'.same hturns]
    exact Ledger.getLast?_of_published hW.coherent.hi.symm hsome

/-- **An attempt under a stamp is secure.** -/
theorem attempt_secure (n : Nat) : ∀ V, Secure .version L i (attempt L n : Routine ε) V := by
  induction n with
  | zero => exact exclusive_secure
  | succ n ih =>
    intro V W hW
    dsimp only
    split
    · exact ih W
    · next hodd =>
      have heven : W.version.toNat % 2 = 0 := by
        have hmod : (W.version % 2).toNat ≠ 1 := fun h => hodd (UInt64.toNat.inj h)
        rw [UInt64.toNat_mod, show (2 : UInt64).toNat = 2 from rfl] at hmod
        omega
      have hstamp : Stamp W.version W.ledger.adopted W :=
        ⟨heven, Nat.le_of_eq hW.toNat_version, fun _ => rfl⟩
      exact look_secure ih hstamp

theorem routine_secure (attempts : UInt32) (V : Shared) :
    Secure .version L i (routine L attempts : Routine ε) V :=
  attempt_secure attempts.toNat V

end Stamped

end HiLo
