/-
HiLo.Proofs.Sequence — the identifiers of a generator on a progression.

On a source that supplies one usable hi value after another, call number `k` of a new
generator returns the pair of the hi number `k / size` and the lo `k % size`, whatever its
design (`FreshRun.outcomes_of_supplies`). A progression is such a source, so its
identifiers have a closed form. Two things are read off it. With the gap that fits the
layout, identifiers are consecutive words, except that a whole block is missing wherever
the reserved value was left out, also after any wrap (`progression_contiguous`). And among
identifiers that do not wrap, the gap that fits is the least one that keeps pooled
identifiers rising; with any smaller gap they repeat (`progression_rising`).
-/
import HiLo.Proofs.Runs
import HiLo.Proofs.Terms
import HiLo.Proofs.Values
import Mathlib.Data.List.Nodup

namespace HiLo

variable {σ ε : Type}

/-! ## Sources that supply -/

/-- From a state on, every answer of the source is a usable hi value: answer number `j` is
`h j`. -/
structure Source.Supplies (S : Source σ ε) (s : σ) (h : Nat → Int64) : Prop where
  reply (j : Nat) : S.reply j s = .value (h j)
  usable (j : Nat) : h j ≠ reserved
  patient (j : Nat) : 0 < S.patience (S.after j s)

namespace Source.Supplies

variable {S : Source σ ε} {s : σ} {h : Nat → Int64}

theorem calm (hs : S.Supplies s h) : S.CalmFrom s := by
  intro j text heq
  rw [hs.reply] at heq
  cases heq

/-- A draw is over with the first answer. -/
theorem draw (hs : S.Supplies s h) (j : Nat) :
    S.draw (S.after j s) = ⟨some (.value (h j)), 0, S.after (j + 1) s⟩ := by
  have hreply : (S.next (S.after j s)).1 = .value (h j) := hs.reply j
  have hne : (Reply.value (h j) : Reply ε).isReserved = false :=
    Reply.isReserved_value.mpr (hs.usable j)
  have hafter : S.after (j + 1) s = (S.next (S.after j s)).2 := (S.after_add 1 j s).symm
  obtain ⟨n, hn⟩ := Nat.exists_eq_add_of_lt (hs.patient j)
  rw [Source.draw, hn, Nat.zero_add, drawWithin]
  simp only [hreply, hne, Bool.false_eq_true, if_false, hafter]

end Source.Supplies

/-- A progression is a source that supplies. -/
theorem Progression.supplies (ε : Type) (p : Progression) :
    (source ε).Supplies p fun j => p.term (j + p.skips j) where
  reply j := reply_source ε j p
  usable j := term_skips_ne_reserved j p
  patient _ := Nat.one_pos

/-! ## Runs on such a source -/

namespace Stock

/-- The stock after `n` calls. -/
def supplied (h : Nat → Int64) (size : Nat) : Nat → Stock
  | 0 => .none
  | n + 1 => .block (h (n / size)) (n % size + 1)

/-- How many hi values `n` calls take. -/
def blocks (size : Nat) : Nat → Nat
  | 0 => 0
  | n + 1 => n / size + 1

variable {S : Source σ ε} {s : σ} {h : Nat → Int64} {size : Nat}

/-- **Call number `n`** returns the pair of the hi number `n / size` and the lo
`n % size`. -/
theorem serve_supplied (hs : S.Supplies s h) (hsize : 0 < size) (n : Nat) :
    let q := (supplied h size n).serve S size (S.after (blocks size n) s)
    q.ending = .claimed (h (n / size)) (.ofNat (n % size)) ∧
      q.stock = supplied h size (n + 1) ∧ q.source = S.after (blocks size (n + 1)) s := by
  have hrefill : ∀ (k : Stock) (j : Nat), k.refill (S.draw (S.after j s))
      = ⟨.claimed (h j) 0, .block (h j) 1, S.after (j + 1) s, [.value (h j)]⟩ := by
    intro k j
    rw [hs.draw]
    rfl
  cases n with
  | zero =>
    intro q
    have hq : q = _ := hrefill .none 0
    rw [hq, Nat.zero_div, Nat.zero_mod]
    refine ⟨rfl, ?_, ?_⟩ <;> simp [supplied, blocks]
  | succ n =>
    intro q
    have hlt := Nat.mod_lt n hsize
    have hsplit := Nat.mod_add_div n size
    by_cases room : n % size + 1 < size
    · obtain ⟨hdiv, hmod⟩ : (n + 1) / size = n / size ∧ (n + 1) % size = n % size + 1 :=
        (Nat.div_mod_unique hsize).mpr ⟨by omega, room⟩
      have hq : q = _ := if_pos room
      rw [hq, hdiv, hmod]
      refine ⟨rfl, ?_, ?_⟩ <;> simp only [supplied, blocks, hdiv, hmod]
    · obtain ⟨hdiv, hmod⟩ : (n + 1) / size = n / size + 1 ∧ (n + 1) % size = 0 :=
        (Nat.div_mod_unique hsize).mpr ⟨by rw [Nat.mul_add]; omega, hsize⟩
      have hq : q = _ := (if_neg room).trans (hrefill _ (n / size + 1))
      rw [hq, hdiv, hmod]
      refine ⟨rfl, ?_, ?_⟩ <;> simp only [supplied, blocks, hdiv, hmod]

/-- So every call of a run returns its pair. -/
theorem endings_supplied (hs : S.Supplies s h) (hsize : 0 < size) (n : Nat) :
    ∀ i, ((supplied h size i).serves S size n (S.after (blocks size i) s)).map Served.ending
      = (List.range' i n).map fun k => .claimed (h (k / size)) (.ofNat (k % size)) := by
  induction n with
  | zero => intro i; rfl
  | succ n ih =>
    intro i
    obtain ⟨hending, hstock, hsource⟩ := serve_supplied hs hsize i
    rw [serves, List.map_cons, List.range'_succ, List.map_cons, hending, hstock, hsource, ih]

end Stock

/-- **A new generator on a source that supplies** answers every call: call number `k` with
the identifier of the hi number `k / size` and the lo `k % size`. -/
theorem FreshRun.outcomes_of_supplies {S : Source σ ε} {kind : LockKind} {L : Layout} {n : Nat}
    {s : σ} {h : Nat → Int64} {cs : List (Called σ ε)} (run : FreshRun S kind L n s cs)
    (hn : n ≤ 2 ^ 62) (hs : S.Supplies s h) :
    cs.map Called.outcome = (List.range n).map fun k =>
      .id (L.scheme.combine (h (k / L.size)) (.ofNat (k % L.size)) L.capacity) := by
  have hshown : cs.map Called.outcome
      = (Stock.none.serves S L.size n s).map fun q => q.ending.outcome L := by
    have hmap := congrArg (List.map Shown.outcome) (run.shown_eq hn fun _ => hs.calm)
    rw [List.map_map, List.map_map] at hmap
    exact hmap
  have hendings := congrArg (List.map (Ending.outcome L))
    (Stock.endings_supplied hs L.size_pos n 0)
  rw [List.map_map, List.map_map, ← List.range_eq_range'] at hendings
  refine hshown.trans (hendings.trans (List.map_congr_left fun k _ => ?_))
  simp only [Function.comp_apply, Ending.outcome,
    Layout.compose_ofNat (hs.usable _) (Nat.mod_lt k L.size_pos)]

/-! ## Consecutive identifiers -/

/-- The gap with which the blocks of a layout follow one another without a break. -/
def Layout.gap (L : Layout) : Int64 :=
  match L.scheme with
  | .hilo => 0
  | .pooled => L.capacity - 1

/-- With the gap of a layout a progression starts at every value but the reserved one, and
its values are as far apart as the blocks are. -/
theorem Progression.exists_start (L : Layout) {start : Int64} (hstart : start ≠ reserved) :
    ∃ p, Progression.start start L.gap = .ok p := by
  have hpos := L.positive
  have hgap : ¬ L.gap < 0 ∧ 0 < L.gap + 1 := by
    unfold Layout.gap
    cases L.scheme with
    | hilo => exact ⟨Int64.not_lt.mpr (Int64.le_refl 0), (by decide : (0 : Int64) < 0 + 1)⟩
    | pooled => constructor <;> grind
  exact ⟨_, by rw [Progression.start, if_neg hstart, if_neg hgap.1, dif_pos hgap.2]⟩

/-- A pair of term number `j + q` of a progression with the gap of the layout is the
identifier number `size * j + lo` after the first one, and `q` blocks further. -/
theorem Layout.combine_term (L : Layout) {p : Progression} (hstep : p.step = L.gap + 1)
    (j q lo : Nat) :
    L.scheme.combine (p.term (j + q)) (.ofNat lo) L.capacity
      = L.scheme.combine p.upcoming 0 L.capacity + .ofNat (L.size * j + lo)
        + L.capacity * .ofNat q := by
  have hsize : Int64.ofNat L.size = L.capacity := by
    apply Int64.toInt.inj
    rw [Int64.toInt_ofNat_of_lt L.size_lt, L.capacity_toInt]
  rw [Int64.ofNat_add, Int64.ofNat_mul, hsize]
  unfold Progression.term
  rw [hstep, Int64.ofNat_add]
  unfold Layout.gap Scheme.combine
  cases L.scheme with
  | hilo => grind
  | pooled => grind

/-- **Consecutive identifiers.** Let a progression start at a usable value with the gap of a
layout. Its value number `j` is its term number `j + p.skips j`, where `p.skips j` is the
number of terms before it that are the reserved value; none is before the first. The
identifier of call number `k` of a new generator is then `k` words after that of the first
call, and one more block of words for every term that was left out before its hi. Words
wrap, so this holds across every overflow of hi, of the product and of the sum. -/
theorem progression_contiguous (L : Layout) {start : Int64} (hstart : start ≠ reserved) :
    ∃ p, Progression.start start L.gap = .ok p ∧
      (∀ j, (Progression.source ε).reply j p = .value (p.term (j + p.skips j)) ∧
        p.skips j = Nat.count (fun i => p.term i = reserved) (j + p.skips j)) ∧
      p.skips 0 = 0 ∧
      ∃ first, ∀ kind n (cs : List (Called Progression ε)), n ≤ 2 ^ 62 →
        FreshRun (Progression.source ε) kind L n p cs →
          cs.map Called.outcome = (List.range n).map fun k =>
            .id (first + .ofNat k + L.capacity * .ofNat (p.skips (k / L.size))) := by
  obtain ⟨p, made⟩ := Progression.exists_start L hstart
  obtain ⟨-, hupcoming, -, hstep⟩ := Progression.of_start made
  refine ⟨p, made, fun j => ⟨p.reply_source ε j, p.skips_eq_count j⟩,
    if_neg (hupcoming ▸ hstart), L.scheme.combine start 0 L.capacity, fun kind n cs hn run => ?_⟩
  rw [run.outcomes_of_supplies hn (p.supplies ε)]
  refine List.map_congr_left fun k _ => ?_
  rw [L.combine_term hstep, hupcoming, Nat.div_add_mod]

/-- Two blocks before the counter wraps and two after it. The block between them, which
would be that of the reserved value, is missing. -/
theorem progression_contiguous_at_wrap :
    let L : Layout := ⟨2, .hilo, by decide⟩
    let p : Progression := ⟨Int64.maxValue - 1, 1, by decide⟩
    let calls := Generator.calls (Progression.source Cause) .poisoning 7
      (.fresh (.stamped 2) L) p
    calls.map (·.outcome.id?)
        = [some (-4), some (-3), some (-2), some (-1), some 2, some 3, some 4] ∧
      p.skips 1 = 0 ∧ p.skips 2 = 1 ∧
      ∃ first, calls.map Called.outcome = (List.range 7).map fun k =>
        .id (first + .ofNat k + L.capacity * .ofNat (p.skips (k / L.size))) := by
  intro L p calls
  obtain ⟨p', made, -, -, first, hruns⟩ := progression_contiguous (ε := Cause) L
    (show Int64.maxValue - 1 ≠ reserved by decide)
  obtain rfl : p = p' := Except.ok.inj ((show _ = Except.ok p from rfl).symm.trans made)
  exact ⟨by decide +kernel, by decide, by decide, first,
    hruns .poisoning 7 calls (by decide) (.direct (.stamped 2))⟩

/-! ## Rising identifiers -/

/-- The identifier number `k` on a progression among the integers. -/
def Layout.nth (L : Layout) (start gap : Int64) (k : Nat) : Int :=
  match L.scheme with
  | .hilo => (start.toInt + (k / L.size : Nat) * (gap.toInt + 1)) * L.size + (k % L.size : Nat)
  | .pooled => start.toInt + (k / L.size : Nat) * (gap.toInt + 1) + (k % L.size : Nat)

/-- Hi number `j`, as long as it does not wrap. -/
theorem Progression.toInt_hi {start gap : Int64} {p : Progression}
    (made : Progression.start start gap = .ok p) {j : Nat}
    (h : start.toInt + j * (gap.toInt + 1) < 2 ^ 63) :
    (p.term (j + p.skips j)).toInt = start.toInt + j * (gap.toInt + 1) := by
  obtain ⟨hstart, rfl, -, -⟩ := Progression.of_start made
  rw [← step_of_start made] at h ⊢
  rw [skips_eq_zero hstart h, Nat.add_zero]
  exact toInt_term_of_lt h

section Rising

variable {L : Layout} {start gap : Int64} {p : Progression} {k k' : Nat}

/-- Where an identifier does not overflow, neither does its hi. -/
theorem Layout.hi_lt_of_nth_lt (h : L.nth start gap k < 2 ^ 63) :
    start.toInt + (k / L.size : Nat) * (gap.toInt + 1) < 2 ^ 63 := by
  have hsize : (1 : Int) ≤ L.size := Int.ofNat_le.mpr L.size_pos
  have hlo : (0 : Int) ≤ (k % L.size : Nat) := Int.natCast_nonneg _
  unfold nth at h
  cases hscheme : L.scheme with
  | hilo =>
    simp only [hscheme] at h
    refine Int.not_le.mp fun hge => ?_
    have hblock := Int.mul_le_mul_of_nonneg_left hsize (Int.le_trans (by decide) hge)
    omega
  | pooled =>
    simp only [hscheme] at h
    omega

/-- The pair number `k` among the integers. -/
theorem Progression.value_nth (made : Progression.start start gap = .ok p)
    (h : L.nth start gap k < 2 ^ 63) :
    L.value (p.term (k / L.size + p.skips (k / L.size))) (.ofNat (k % L.size))
      = L.nth start gap k := by
  have hhi := toInt_hi made (Layout.hi_lt_of_nth_lt h)
  have hlo := Layout.toInt_lo (Nat.mod_lt k L.size_pos)
  unfold Layout.value Layout.nth
  cases L.scheme with
  | hilo => dsimp only; rw [hhi, hlo]
  | pooled => dsimp only; rw [hhi, hlo]

/-- Pooled identifiers are not below the first hi. -/
theorem Layout.le_nth_of_pooled (pooled : L.scheme = .pooled) (hgap : 0 ≤ gap.toInt) :
    -2 ^ 63 ≤ L.nth start gap k := by
  have hstart := start.le_toInt
  have hrise : 0 ≤ ((k / L.size : Nat) : Int) * (gap.toInt + 1) :=
    Int.mul_nonneg (Int.natCast_nonneg _) (by omega)
  unfold nth
  rw [pooled]
  dsimp only
  omega

/-- The identifier of call number `k` on a progression. -/
def Progression.identifier (p : Progression) (L : Layout) (k : Nat) : Int64 :=
  L.scheme.combine (p.term (k / L.size + p.skips (k / L.size))) (.ofNat (k % L.size)) L.capacity

/-- An identifier that does not overflow is the integer number `k`. -/
theorem Progression.toInt_identifier (made : Progression.start start gap = .ok p)
    (high : L.nth start gap k < 2 ^ 63) (low : L.scheme = .hilo → -2 ^ 63 ≤ L.nth start gap k) :
    (p.identifier L k).toInt = L.nth start gap k := by
  obtain ⟨-, -, hgap, -⟩ := of_start made
  have hlow : -2 ^ 63 ≤ L.nth start gap k := by
    cases hscheme : L.scheme with
    | hilo => exact low hscheme
    | pooled => exact Layout.le_nth_of_pooled hscheme (Int64.le_iff_toInt_le.mp hgap)
  have hvalue := value_nth made high
  rw [← hvalue]
  exact Layout.toInt_combine_of_exact ⟨hvalue ▸ hlow, hvalue ▸ high⟩

/-- Later identifiers are greater, where pooled blocks are at least their size apart. -/
theorem Progression.nth_lt (made : Progression.start start gap = .ok p)
    (wide : L.scheme = .pooled → L.size ≤ gap.toInt + 1) (hk : k < k')
    (h : L.nth start gap k < 2 ^ 63) (h' : L.nth start gap k' < 2 ^ 63) :
    L.nth start gap k < L.nth start gap k' := by
  rw [← value_nth made h, ← value_nth made h']
  have hhi := toInt_hi made (Layout.hi_lt_of_nth_lt h)
  have hhi' := toInt_hi made (Layout.hi_lt_of_nth_lt h')
  refine Layout.value_lt ?_ (Layout.lo_lt_capacity (Nat.mod_lt k L.size_pos))
    (Layout.lo_nonneg (Nat.mod_lt k' L.size_pos))
  rcases Nat.lt_or_eq_of_le (Nat.div_le_div_right (c := L.size) (Nat.le_of_lt hk)) with hlt | heq
  · -- a later block starts by a whole step further, at least
    have hpos := p.step_toInt_pos
    rw [step_of_start made] at hpos
    have hblocks : ((k / L.size : Nat) + 1) * (gap.toInt + 1)
        ≤ (k' / L.size : Nat) * (gap.toInt + 1) :=
      Int.mul_le_mul_of_nonneg_right (Int.ofNat_le.mpr hlt) (Int.le_of_lt hpos)
    rw [Int.add_mul, Int.one_mul] at hblocks
    refine .inl ?_
    unfold Layout.Apart
    cases hscheme : L.scheme with
    | hilo => dsimp only; omega
    | pooled =>
      have := wide hscheme
      dsimp only
      omega
  · refine .inr ⟨by rw [heq], ?_⟩
    have hsplit := Nat.mod_add_div k L.size
    have hsplit' := Nat.mod_add_div k' L.size
    rw [← heq] at hsplit'
    rw [Int64.lt_iff_toInt_lt, Layout.toInt_lo (Nat.mod_lt k L.size_pos),
      Layout.toInt_lo (Nat.mod_lt k' L.size_pos)]
    omega

/-- Where pooled blocks are less than their size apart, the first identifier of the second
block was handed out in the first. -/
theorem Layout.nth_repeats (pooled : L.scheme = .pooled) (hgap : 0 ≤ gap.toInt)
    (narrow : gap.toInt + 1 < L.size) :
    L.nth start gap (gap.toInt.toNat + 1) = L.nth start gap L.size := by
  have hlt : gap.toInt.toNat + 1 < L.size := by omega
  unfold nth
  rw [pooled]
  dsimp only
  rw [Nat.div_eq_of_lt hlt, Nat.mod_eq_of_lt hlt, Nat.div_self L.size_pos, Nat.mod_self]
  omega

/-- **Rising identifiers.** Take the first identifiers of a new generator on a progression,
none of which overflows. They are the integers in closed form. If hi is multiplied, they
rise, whatever the gap is. If identifiers are counted from hi, they rise with a gap of at
least the capacity less one, and with any smaller gap an identifier is repeated as soon as
there is more than one block. -/
theorem progression_rising {kind : LockKind} {n : Nat} {cs : List (Called Progression ε)}
    (made : Progression.start start gap = .ok p) (hn : n < 2 ^ 62)
    (high : ∀ k < n, L.nth start gap k < 2 ^ 63)
    (low : L.scheme = .hilo → ∀ k < n, -2 ^ 63 ≤ L.nth start gap k)
    (run : FreshRun (Progression.source ε) kind L n p cs) :
    ∃ ids : List Int64, cs.map Called.outcome = ids.map .id ∧
      ids.map Int64.toInt = (List.range n).map (L.nth start gap) ∧
      (L.scheme = .hilo → ids.Pairwise (· < ·)) ∧
      (L.scheme = .pooled → L.capacity - 1 ≤ gap → ids.Pairwise (· < ·)) ∧
      (L.scheme = .pooled → gap < L.capacity - 1 → L.size < n → ¬ ids.Nodup) := by
  obtain ⟨-, -, hgap, -⟩ := Progression.of_start made
  have hgap : 0 ≤ gap.toInt := Int64.le_iff_toInt_le.mp hgap
  have hid : ∀ k < n, (p.identifier L k).toInt = L.nth start gap k := fun k hk =>
    Progression.toInt_identifier made (high k hk) fun hhilo => low hhilo k hk
  have hrising : (L.scheme = .pooled → L.size ≤ gap.toInt + 1) →
      ((List.range n).map (p.identifier L)).Pairwise (· < ·) := by
    intro wide
    refine List.pairwise_map.mpr (List.pairwise_lt_range.imp_of_mem fun {k k'} hk hk' hlt => ?_)
    rw [List.mem_range] at hk hk'
    rw [Int64.lt_iff_toInt_lt, hid k hk, hid k' hk']
    exact Progression.nth_lt made wide hlt (high k hk) (high k' hk')
  refine ⟨(List.range n).map (p.identifier L), ?_, ?_, fun hhilo => hrising ?_,
    fun _ wide => hrising ?_, fun hpooled narrow hblock hnodup => ?_⟩
  · rw [run.outcomes_of_supplies (Nat.le_of_lt hn) (p.supplies ε), List.map_map]
    rfl
  · rw [List.map_map]
    exact List.map_congr_left fun k hk => hid k (List.mem_range.mp hk)
  · rw [hhilo]
    nofun
  · rw [Int64.le_iff_toInt_le, L.toInt_capacity_sub_one] at wide
    exact fun _ => by omega
  · rw [Int64.lt_iff_toInt_lt, L.toInt_capacity_sub_one] at narrow
    have hlt : gap.toInt.toNat + 1 < L.size := by omega
    have hsame : p.identifier L (gap.toInt.toNat + 1) = p.identifier L L.size := by
      apply Int64.toInt.inj
      rw [hid _ (by omega), hid _ hblock]
      exact Layout.nth_repeats hpooled hgap (by omega)
    have heq := List.inj_on_of_nodup_map hnodup (List.mem_range.mpr (by omega))
      (List.mem_range.mpr hblock) hsame
    omega

end Rising

/-- Pooled blocks of three identifiers with a gap of one. -/
theorem progression_rising_with_repetition :
    let L : Layout := ⟨3, .pooled, by decide⟩
    let calls := Generator.calls (Progression.source Cause) .poisoning 5
      (.fresh (.optimistic 1) L) ⟨-4, 2, by decide⟩
    calls.map (·.outcome.id?) = [some (-4), some (-3), some (-2), some (-2), some (-1)] ∧
      ∃ ids : List Int64, calls.map Called.outcome = ids.map .id ∧ ¬ ids.Nodup := by
  intro L calls
  have made : Progression.start (-4) 1 = .ok ⟨-4, 2, by decide⟩ := rfl
  obtain ⟨ids, hids, -, -, -, hrepeats⟩ := progression_rising (ε := Cause) (L := L) made
    (by decide : 5 < 2 ^ 62) (by decide) nofun (.direct (.optimistic 1))
  exact ⟨by decide +kernel, ids, hids, hrepeats rfl (by decide) (by decide)⟩

end HiLo
