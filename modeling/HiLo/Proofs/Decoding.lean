/-
HiLo.Proofs.Decoding — what an identifier tells of its pair.

Identifiers are words, so two pairs make the same identifier exactly if the integers that
they make differ by a multiple of 2^64 (`combine_eq_iff`). As long as those integers are less
than 2^64 apart, and no block reaches into another, equal identifiers come from equal pairs
(`identifiers_apart`).

Where blocks are numbered, an identifier that did not overflow is read back by Euclidean
division: the quotient by the capacity is hi and the remainder is lo, whatever the product did
on the way (`identifiers_decode`). Division rounds down, so this holds of negative hi values
as well.
-/
import HiLo.Proofs.Values
import Mathlib.Algebra.Order.Ring.Abs
import Mathlib.Data.Set.Function
import Mathlib.Tactic.Linarith

namespace HiLo

/-- A pair that makes an identifier: a hi that is not reserved, with a lo of its block. -/
structure IsPair (capacity hi lo : Int64) : Prop where
  useful : hi ≠ reserved
  nonneg : 0 ≤ lo
  inside : lo < capacity

/-! ## Bounds of a pair -/

namespace IsPair

variable {L : Layout} {hi hi' lo lo' : Int64}

theorem toInt_nonneg {c : Int64} (h : IsPair c hi lo) : 0 ≤ lo.toInt :=
  Int64.le_iff_toInt_le.mp h.nonneg

theorem toInt_lt (h : IsPair L.capacity hi lo) : lo.toInt < L.size :=
  L.capacity_toInt ▸ Int64.lt_iff_toInt_lt.mp h.inside

theorem compose_eq (h : IsPair L.capacity hi lo) :
    L.compose hi lo = .ok (L.scheme.combine hi lo L.capacity) :=
  Layout.compose_eq_ok h.useful h.nonneg h.inside

/-- Two lo values of one block are less than the block apart. -/
theorem abs_sub_lt (h : IsPair L.capacity hi lo) (h' : IsPair L.capacity hi' lo') :
    |lo.toInt - lo'.toInt| < L.size := by
  have := h.toInt_nonneg
  have := h'.toInt_nonneg
  have := h.toInt_lt
  have := h'.toInt_lt
  rw [abs_lt]
  omega

end IsPair

namespace Layout

variable {L : Layout} {hi hi' lo lo' : Int64}

/-! ## When identifiers are equal -/

/-- Two pairs make the same identifier exactly if their integers are equal up to wrapping. -/
theorem combine_eq_iff :
    L.scheme.combine hi lo L.capacity = L.scheme.combine hi' lo' L.capacity ↔
      (2 : Int) ^ 64 ∣ L.value hi lo - L.value hi' lo' := by
  rw [← Int64.toInt_inj, toInt_combine, toInt_combine, Int.bmod_eq_bmod_iff_bmod_sub_eq_zero]
  exact ⟨Int.dvd_of_bmod_eq_zero, Int.bmod_eq_zero_of_dvd⟩

/-- Equal integers come from equal pairs, if different blocks do not overlap. -/
theorem value_inj (hapart : hi ≠ hi' → L.Apart hi hi' ∨ L.Apart hi' hi)
    (h : IsPair L.capacity hi lo) (h' : IsPair L.capacity hi' lo')
    (heq : L.value hi lo = L.value hi' lo') : hi = hi' ∧ lo = lo' := by
  by_contra hne
  refine value_ne (fun _ _ => rfl) hapart h.nonneg h.inside h'.nonneg h'.inside ?_ heq
  exact fun hhi hlo => hne ⟨hhi, hlo⟩

/-- So do equal identifiers, if the integers are also less than all words apart. -/
theorem compose_inj (hapart : hi ≠ hi' → L.Apart hi hi' ∨ L.Apart hi' hi)
    (near : |L.value hi lo - L.value hi' lo'| < 2 ^ 64)
    (h : IsPair L.capacity hi lo) (h' : IsPair L.capacity hi' lo') :
    L.compose hi lo = L.compose hi' lo' ↔ hi = hi' ∧ lo = lo' := by
  constructor
  · intro heq
    rw [h.compose_eq, h'.compose_eq] at heq
    have hdvd := combine_eq_iff.mp (Except.ok.inj heq)
    exact value_inj hapart h h' (sub_eq_zero.mp (Int.eq_zero_of_abs_lt_dvd hdvd near))
  · rintro ⟨rfl, rfl⟩
    rfl

/-! ## How far identifiers are apart -/

theorem value_hilo (hscheme : L.scheme = .hilo) :
    L.value hi lo = hi.toInt * L.size + lo.toInt := by
  unfold value
  rw [hscheme]

theorem value_pooled (hscheme : L.scheme = .pooled) : L.value hi lo = hi.toInt + lo.toInt := by
  unfold value
  rw [hscheme]

/-- Where hi is multiplied, hi values and their distance span a block each. -/
theorem abs_value_sub_lt_of_hilo (hscheme : L.scheme = .hilo) (h : IsPair L.capacity hi lo)
    (h' : IsPair L.capacity hi' lo')
    (near : (|hi.toInt - hi'.toInt| + 1) * L.size ≤ 2 ^ 64) :
    |L.value hi lo - L.value hi' lo'| < 2 ^ 64 := by
  have hdiff : L.value hi lo - L.value hi' lo'
      = (hi.toInt - hi'.toInt) * L.size + (lo.toInt - lo'.toInt) := by
    rw [value_hilo hscheme, value_hilo hscheme, sub_mul]
    omega
  calc |L.value hi lo - L.value hi' lo'|
      ≤ |(hi.toInt - hi'.toInt) * L.size| + |lo.toInt - lo'.toInt| := hdiff ▸ abs_add_le _ _
    _ = |hi.toInt - hi'.toInt| * L.size + |lo.toInt - lo'.toInt| := by rw [abs_mul, Nat.abs_cast]
    _ < |hi.toInt - hi'.toInt| * L.size + L.size := Int.add_lt_add_left (h.abs_sub_lt h') _
    _ = (|hi.toInt - hi'.toInt| + 1) * L.size := by rw [add_mul, one_mul]
    _ ≤ 2 ^ 64 := near

/-- Where identifiers are counted from hi, they are as far apart as their hi values, up to a
block. -/
theorem abs_value_sub_lt_of_pooled (hscheme : L.scheme = .pooled) (h : IsPair L.capacity hi lo)
    (h' : IsPair L.capacity hi' lo') (near : |hi.toInt - hi'.toInt| + L.size ≤ 2 ^ 64) :
    |L.value hi lo - L.value hi' lo'| < 2 ^ 64 := by
  have hdiff : L.value hi lo - L.value hi' lo'
      = (hi.toInt - hi'.toInt) + (lo.toInt - lo'.toInt) := by
    rw [value_pooled hscheme, value_pooled hscheme]
    omega
  calc |L.value hi lo - L.value hi' lo'|
      ≤ |hi.toInt - hi'.toInt| + |lo.toInt - lo'.toInt| := hdiff ▸ abs_add_le _ _
    _ < |hi.toInt - hi'.toInt| + L.size := Int.add_lt_add_left (h.abs_sub_lt h') _
    _ ≤ 2 ^ 64 := near

theorem compose_inj_of_hilo (hscheme : L.scheme = .hilo) (h : IsPair L.capacity hi lo)
    (h' : IsPair L.capacity hi' lo')
    (near : (|hi.toInt - hi'.toInt| + 1) * L.size ≤ 2 ^ 64) :
    L.compose hi lo = L.compose hi' lo' ↔ hi = hi' ∧ lo = lo' :=
  compose_inj (apart_of_hilo hscheme hscheme) (abs_value_sub_lt_of_hilo hscheme h h' near) h h'

theorem compose_inj_of_pooled (hscheme : L.scheme = .pooled) (h : IsPair L.capacity hi lo)
    (h' : IsPair L.capacity hi' lo')
    (away : hi = hi' ∨ (L.size : Int) ≤ |hi.toInt - hi'.toInt| ∧
      |hi.toInt - hi'.toInt| ≤ 2 ^ 64 - L.size) :
    L.compose hi lo = L.compose hi' lo' ↔ hi = hi' ∧ lo = lo' := by
  have hsize := L.size_lt
  have near : |hi.toInt - hi'.toInt| + L.size ≤ 2 ^ 64 := by
    rcases away with rfl | ⟨-, hfar⟩
    · rw [sub_self, abs_zero]
      omega
    · omega
  refine compose_inj (fun hne => ?_) (abs_value_sub_lt_of_pooled hscheme h h' near) h h'
  have hblock := (away.resolve_left hne).1
  rw [Int.abs_eq_natAbs, Int.ofNat_le] at hblock
  exact apart_of_pooled hscheme hscheme hblock hblock

/-! ## Reading an identifier back -/

/-- Where hi is multiplied, the integer of a pair tells the pair. -/
theorem value_ediv_emod (hscheme : L.scheme = .hilo) (h : IsPair L.capacity hi lo) :
    L.value hi lo / L.size = hi.toInt ∧ L.value hi lo % L.size = lo.toInt := by
  refine (Int.ediv_emod_unique (Int.natCast_pos.mpr L.size_pos)).mpr
    ⟨?_, h.toInt_nonneg, h.toInt_lt⟩
  rw [value_hilo hscheme, mul_comm, add_comm]

/-- Where hi is multiplied, integers are ordered as pairs are. -/
theorem value_lt_iff (hscheme : L.scheme = .hilo) (h : IsPair L.capacity hi lo)
    (h' : IsPair L.capacity hi' lo') :
    L.value hi lo < L.value hi' lo' ↔ hi < hi' ∨ hi = hi' ∧ lo < lo' := by
  have hlt : ∀ {a a' b b' : Int64}, IsPair L.capacity a b → IsPair L.capacity a' b' →
      a < a' ∨ a = a' ∧ b < b' → L.value a b < L.value a' b' := by
    intro a a' b b' hp hp' hlex
    refine value_lt (hlex.imp_left fun hhi => ?_) hp.inside hp'.nonneg
    unfold Apart
    rw [hscheme]
    exact Int64.lt_iff_toInt_lt.mp hhi
  refine ⟨fun hvalue => ?_, hlt h h'⟩
  by_contra hnot
  rw [not_or, not_and] at hnot
  rcases Int64.lt_or_eq_of_le (Int64.not_lt.mp hnot.1) with hhi | rfl
  · exact lt_asymm hvalue (hlt h' h (.inl hhi))
  · rcases Int64.lt_or_eq_of_le (Int64.not_lt.mp (hnot.2 rfl)) with hlo | rfl
    · exact lt_asymm hvalue (hlt h' h (.inr ⟨rfl, hlo⟩))
    · exact lt_irrefl _ hvalue

/-- Every word is the identifier of its quotient and its remainder, unless the quotient is the
reserved value. -/
theorem exists_pair (hscheme : L.scheme = .hilo) {x : Int64}
    (useful : x.toInt / L.size ≠ reserved.toInt) :
    ∃ hi lo : Int64, hi.toInt = x.toInt / L.size ∧ lo.toInt = x.toInt % L.size ∧
      IsPair L.capacity hi lo ∧ L.compose hi lo = .ok x := by
  have hpos : (0 : Int) < L.size := Int.natCast_pos.mpr L.size_pos
  have hlow := x.le_toInt
  have hhigh := x.toInt_lt
  have hsize := L.size_lt
  -- a quotient is no further from zero than the number
  have hquotient : -2 ^ 63 ≤ x.toInt / L.size ∧ x.toInt / L.size < 2 ^ 63 :=
    ⟨Int.le_ediv_of_mul_le hpos (by nlinarith), Int.ediv_lt_of_lt_mul hpos (by nlinarith)⟩
  have hnonneg := Int.emod_nonneg x.toInt hpos.ne'
  have hinside := Int.emod_lt_of_pos x.toInt hpos
  obtain ⟨hi, hhi⟩ : ∃ hi : Int64, hi.toInt = x.toInt / L.size :=
    ⟨_, Int64.toInt_ofInt_of_le hquotient.1 hquotient.2⟩
  obtain ⟨lo, hlo⟩ : ∃ lo : Int64, lo.toInt = x.toInt % L.size :=
    ⟨_, Int64.toInt_ofInt_of_le (by omega) (by omega)⟩
  have hpair : IsPair L.capacity hi lo := by
    refine ⟨fun heq => useful (by rw [← hhi, heq]), ?_, ?_⟩
    · rw [Int64.le_iff_toInt_le, hlo]
      exact hnonneg
    · rw [Int64.lt_iff_toInt_lt, hlo, L.capacity_toInt]
      exact hinside
  have hvalue : L.value hi lo = x.toInt := by
    rw [value_hilo hscheme, hhi, hlo, Int.ediv_mul_add_emod]
  have hexact : L.Exact hi lo := by
    unfold Exact
    rw [hvalue]
    exact ⟨hlow, hhigh⟩
  refine ⟨hi, lo, hhi, hlo, hpair, ?_⟩
  rw [hpair.compose_eq]
  exact congrArg Except.ok (Int64.toInt.inj ((toInt_combine_of_exact hexact).trans hvalue))

end Layout

/-! ## The whole of it -/

/-- **Identifiers do not meet.** Under the numbering scheme, two pairs whose hi values are so
close that they and all between them have no more than 2^64 identifiers make different
identifiers unless they are equal, also where products wrap. Under the pooled scheme the same
holds of one hi, and of two that are a block apart either way round. So the hi values of a
window that is as wide as 2^64 has whole blocks make different identifiers throughout. -/
theorem identifiers_apart {c : Int64} (positive : 0 < c) :
    (∀ hi lo hi' lo' : Int64, IsPair c hi lo → IsPair c hi' lo' →
      (∀ m, ∃ id, compose hi lo c m = .ok id) ∧
      ((|hi.toInt - hi'.toInt| + 1) * c.toInt ≤ 2 ^ 64 →
        (compose hi lo c .hilo = compose hi' lo' c .hilo ↔ hi = hi' ∧ lo = lo')) ∧
      (hi = hi' ∨ c.toInt ≤ |hi.toInt - hi'.toInt| ∧ |hi.toInt - hi'.toInt| ≤ 2 ^ 64 - c.toInt →
        (compose hi lo c .pooled = compose hi' lo' c .pooled ↔ hi = hi' ∧ lo = lo'))) ∧
    ∀ (his : Set Int64) (first : Int),
      (∀ hi ∈ his, first ≤ hi.toInt ∧ hi.toInt < first + 2 ^ 64 / c.toInt) →
      {p : Int64 × Int64 | p.1 ∈ his ∧ IsPair c p.1 p.2}.InjOn
        fun p => compose p.1 p.2 c .hilo := by
  let layout (m : Scheme) : Layout := ⟨c, m, positive⟩
  have hsize : c.toInt = (layout .hilo).size := (layout .hilo).capacity_toInt
  have hpos : 0 < c.toInt := Int64.lt_iff_toInt_lt.mp positive
  refine ⟨fun hi lo hi' lo' h h' => ⟨fun m => ⟨_, IsPair.compose_eq (L := layout m) h⟩,
    fun near => ?_, fun away => ?_⟩, fun his first window => ?_⟩
  · exact (layout .hilo).compose_inj_of_hilo rfl h h' (hsize ▸ near)
  · exact (layout .pooled).compose_inj_of_pooled rfl h h' (hsize ▸ away)
  · rintro ⟨hi, lo⟩ ⟨hmem, h⟩ ⟨hi', lo'⟩ ⟨hmem', h'⟩ heq
    have hwidth : |hi.toInt - hi'.toInt| + 1 ≤ 2 ^ 64 / c.toInt := by
      obtain ⟨hlow, hhigh⟩ := window hi hmem
      obtain ⟨hlow', hhigh'⟩ := window hi' hmem'
      rw [Int.add_one_le_iff, abs_lt]
      omega
    have near : (|hi.toInt - hi'.toInt| + 1) * c.toInt ≤ 2 ^ 64 :=
      (Int.mul_le_mul_of_nonneg_right hwidth hpos.le).trans (Int.ediv_mul_le _ hpos.ne')
    have hpair := ((layout .hilo).compose_inj_of_hilo rfl h h' (hsize ▸ near)).mp heq
    exact Prod.ext hpair.1 hpair.2

/-- With a quarter of all words in a block, the windows are four hi values wide: the first and the
fourth are apart, although three blocks wrap, and the fifth makes the identifiers of the first. -/
theorem identifiers_apart_of_quarters :
    let c : Int64 := 4611686018427387904
    let last : Int64 := 4611686018427387903
    IsPair c 3 last ∧ IsPair c 0 last ∧
      compose 3 last c .hilo = .ok (-1) ∧ compose 3 last c .hilo ≠ compose 0 last c .hilo ∧
      compose 3 last c .pooled ≠ compose 3 0 c .pooled ∧
      {p : Int64 × Int64 | p.1 ∈ ({0, 1, 2, 3} : Set Int64) ∧ IsPair c p.1 p.2}.InjOn
        (fun p => compose p.1 p.2 c .hilo) ∧
      compose 4 last c .hilo = compose 0 last c .hilo := by
  intro c last
  have hthird : IsPair c 3 last := ⟨by decide, by decide, by decide⟩
  have hfirst : IsPair c 0 last := ⟨by decide, by decide, by decide⟩
  have hstart : IsPair c 3 0 := ⟨by decide, by decide, by decide⟩
  obtain ⟨hpairs, hwindows⟩ := identifiers_apart (c := c) (by decide)
  refine ⟨hthird, hfirst, by decide, fun heq => ?_, fun heq => ?_, hwindows {0, 1, 2, 3} 0 ?_,
    by decide⟩
  · exact absurd ((hpairs _ _ _ _ hthird hfirst).2.1 (by decide) |>.mp heq).1 (by decide)
  · exact absurd ((hpairs _ _ _ _ hthird hstart).2.2 (.inl rfl) |>.mp heq).2 (by decide)
  · rintro hi (rfl | rfl | rfl | rfl) <;> decide

/-- **Identifiers tell their pairs.** Under the numbering scheme, a pair whose identifier fits into
a word is read back by Euclidean division of the identifier, and identifiers are ordered as their
pairs are, first by hi and then by lo. The other way round, every word is the identifier of its
quotient and its remainder, unless the quotient is the reserved value. -/
theorem identifiers_decode {L : Layout} (hscheme : L.scheme = .hilo) :
    let c := L.capacity.toInt
    let InRange (hi lo : Int64) :=
      IsPair L.capacity hi lo ∧ -2 ^ 63 ≤ hi.toInt * c + lo.toInt ∧ hi.toInt * c + lo.toInt < 2 ^ 63
    (∀ hi lo, InRange hi lo → ∃ id, L.compose hi lo = .ok id ∧
      id.toInt / c = hi.toInt ∧ id.toInt % c = lo.toInt) ∧
    (∀ hi lo hi' lo' id id', InRange hi lo → InRange hi' lo' →
      L.compose hi lo = .ok id → L.compose hi' lo' = .ok id' →
      (id < id' ↔ hi < hi' ∨ hi = hi' ∧ lo < lo')) ∧
    ∀ x : Int64, x.toInt / c ≠ reserved.toInt →
      ∃ hi lo, hi.toInt = x.toInt / c ∧ lo.toInt = x.toInt % c ∧ L.compose hi lo = .ok x := by
  intro c InRange
  have hc : c = L.size := L.capacity_toInt
  have hvalue : ∀ {hi lo}, InRange hi lo →
      ∃ id, L.compose hi lo = .ok id ∧ id.toInt = L.value hi lo := by
    rintro hi lo ⟨hpair, hrange⟩
    rw [hc, ← Layout.value_hilo hscheme] at hrange
    exact Layout.compose_of_exact hpair.useful hpair.nonneg hpair.inside hrange
  refine ⟨fun hi lo h => ?_, fun hi lo hi' lo' id id' h h' hid hid' => ?_, fun x useful => ?_⟩
  · obtain ⟨id, hid, hint⟩ := hvalue h
    refine ⟨id, hid, ?_⟩
    rw [hint, hc]
    exact Layout.value_ediv_emod hscheme h.1
  · obtain ⟨_, hok, hint⟩ := hvalue h
    obtain ⟨_, hok', hint'⟩ := hvalue h'
    obtain rfl := Except.ok.inj (hid.symm.trans hok)
    obtain rfl := Except.ok.inj (hid'.symm.trans hok')
    rw [Int64.lt_iff_toInt_lt, hint, hint']
    exact Layout.value_lt_iff hscheme h.1 h'.1
  · rw [hc] at useful ⊢
    obtain ⟨hi, lo, hhi, hlo, -, hid⟩ := Layout.exists_pair hscheme useful
    exact ⟨hi, lo, hhi, hlo, hid⟩

/-- At the lower end of the range the product of hi and the capacity wraps to a positive word, and
lo brings the identifier back into the range. -/
theorem identifiers_decode_at_lower_end :
    let L : Layout := ⟨10, .hilo, by decide⟩
    let hi : Int64 := -922337203685477581
    let id : Int64 := -9223372036854775805
    L.scheme = .hilo ∧ hi * L.capacity = 9223372036854775806 ∧
      L.compose hi 5 = .ok id ∧ id.toInt / 10 = hi.toInt ∧ id.toInt % 10 = 5 ∧
      ∃ hi lo, hi.toInt = id.toInt / 10 ∧ lo.toInt = id.toInt % 10 ∧ L.compose hi lo = .ok id := by
  intro L hi id
  obtain ⟨hdecode, -, hevery⟩ := identifiers_decode (L := L) rfl
  have hpair : IsPair L.capacity hi 5 := ⟨by decide, by decide, by decide⟩
  obtain ⟨id', hid', hquotient, hremainder⟩ := hdecode hi 5 ⟨hpair, by decide, by decide⟩
  have hid : L.compose hi 5 = .ok id := by decide
  obtain rfl := Except.ok.inj (hid.symm.trans hid')
  exact ⟨rfl, by decide, hid, hquotient, hremainder, hevery id (by decide)⟩

end HiLo
