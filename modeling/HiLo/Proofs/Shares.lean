/-
HiLo.Proofs.Shares — a log, shared out among its threads.

What a machine's log says of all threads together is put together from what it says of
each of them: the events of a kind are counted thread by thread (`countP_eq_sum`), and two
readings of the log that agree for every thread are permutations of each other
(`perm_filterMap`). Where an event is to be read with what its thread did before, it is the
`histories` of the log that are shared out.
-/
import Mathlib.Algebra.BigOperators.Group.Finset.Piecewise
import Mathlib.Algebra.BigOperators.Ring.Finset
import Mathlib.Algebra.Order.BigOperators.Group.Finset

namespace HiLo

variable {α β : Type}

/-- What belongs to a thread, in order. -/
def share (xs : List (Nat × α)) (i : Nat) : List α :=
  xs.filterMap fun x => if x.1 = i then some x.2 else none

theorem share_cons_self (i : Nat) (a : α) (xs : List (Nat × α)) :
    share ((i, a) :: xs) i = a :: share xs i := by
  simp [share]

theorem share_cons_of_ne {i j : Nat} (ne : j ≠ i) (a : α) (xs : List (Nat × α)) :
    share ((i, a) :: xs) j = share xs j := by
  simp [share, Ne.symm ne]

def owners (xs : List (Nat × α)) : Finset Nat := (xs.map Prod.fst).toFinset

/-- What is counted of all threads is counted thread by thread. -/
theorem countP_eq_sum (q : α → Bool) (s : Finset Nat) :
    ∀ {xs : List (Nat × α)}, owners xs ⊆ s →
      xs.countP (fun x => q x.2) = ∑ i ∈ s, (share xs i).countP q
  | [], _ => by simp [share]
  | (i, a) :: xs, h => by
    have hi : i ∈ s := h (by simp [owners])
    have hxs : owners xs ⊆ s := fun j hj => h (by
      simp only [owners, List.map_cons, List.toFinset_cons, Finset.mem_insert] at hj ⊢
      exact .inr hj)
    have hsplit : ∀ j ∈ s, (share ((i, a) :: xs) j).countP q
        = (share xs j).countP q + if j = i then (if q a then 1 else 0) else 0 := by
      intro j _
      by_cases hj : j = i
      · subst hj
        rw [share_cons_self, List.countP_cons, if_pos rfl]
      · rw [share_cons_of_ne hj, if_neg hj, Nat.add_zero]
    rw [List.countP_cons, countP_eq_sum q s hxs, Finset.sum_congr rfl hsplit,
      Finset.sum_add_distrib, Finset.sum_ite_eq' s i, if_pos hi]

/-- What is counted at most so often with every thread is counted at most so often. -/
theorem countP_le_add_of_share {q r t : α → Bool} {k : Nat} {xs : List (Nat × α)}
    (h : ∀ i, (share xs i).countP q ≤ k * (share xs i).countP r + (share xs i).countP t) :
    xs.countP (fun x => q x.2) ≤ k * xs.countP (fun x => r x.2) + xs.countP fun x => t x.2 := by
  rw [countP_eq_sum q (owners xs) fun _ => id, countP_eq_sum r (owners xs) fun _ => id,
    countP_eq_sum t (owners xs) fun _ => id, Finset.mul_sum, ← Finset.sum_add_distrib]
  exact Finset.sum_le_sum fun i _ => h i

theorem countP_le_of_share {q r : α → Bool} {k : Nat} {xs : List (Nat × α)}
    (h : ∀ i, (share xs i).countP q ≤ k * (share xs i).countP r) :
    xs.countP (fun x => q x.2) ≤ k * xs.countP (fun x => r x.2) := by
  have hsum : xs.countP (fun x => q x.2)
      ≤ k * xs.countP (fun x => r x.2) + xs.countP fun _ => false :=
    countP_le_add_of_share (t := fun _ => false) fun i => Nat.le_add_right_of_le (h i)
  simpa using hsum

/-- What is counted as often with every thread is counted as often. -/
theorem countP_eq_of_share {q r : α → Bool} {xs : List (Nat × α)}
    (h : ∀ i, (share xs i).countP q = (share xs i).countP r) :
    xs.countP (fun x => q x.2) = xs.countP (fun x => r x.2) := by
  rw [countP_eq_sum q (owners xs) fun _ => id, countP_eq_sum r (owners xs) fun _ => id]
  exact Finset.sum_congr rfl fun i _ => h i

/-- If one thread falls short, so do all together. -/
theorem countP_lt_of_share {q r : α → Bool} {xs : List (Nat × α)}
    (h : ∀ i, (share xs i).countP q ≤ (share xs i).countP r) {i : Nat}
    (hi : (share xs i).countP q < (share xs i).countP r) :
    xs.countP (fun x => q x.2) < xs.countP (fun x => r x.2) := by
  have hsub : owners xs ⊆ insert i (owners xs) := Finset.subset_insert i _
  rw [countP_eq_sum q _ hsub, countP_eq_sum r _ hsub]
  exact Finset.sum_lt_sum (fun j _ => h j) ⟨i, Finset.mem_insert_self i _, hi⟩

/-- What a reading finds is found thread by thread. -/
theorem count_filterMap_eq_sum [DecidableEq β] (f : α → Option β) {xs : List (Nat × α)} {b : β} :
    (xs.filterMap fun x => f x.2).count b
      = ∑ i ∈ owners xs, ((share xs i).filterMap f).count b := by
  rw [List.count_filterMap, countP_eq_sum (fun a => f a == some b) (owners xs) fun _ => id]
  exact Finset.sum_congr rfl fun i _ => List.count_filterMap.symm

/-- Two readings that agree for every thread say the same in some order. -/
theorem perm_filterMap {f g : α → Option β} {xs : List (Nat × α)}
    (h : ∀ i, (share xs i).filterMap f = (share xs i).filterMap g) :
    (xs.filterMap fun x => f x.2).Perm (xs.filterMap fun x => g x.2) := by
  classical
  refine List.perm_iff_count.mpr fun b => ?_
  rw [count_filterMap_eq_sum f, count_filterMap_eq_sum g]
  exact Finset.sum_congr rfl fun i _ => by rw [h i]

/-- If every share of one reading is made up of those of two others, so is the whole. -/
theorem perm_append_of_share {f g h : α → Option β} (xs : List (Nat × α))
    (split : ∀ i, ((share xs i).filterMap f).Perm
      ((share xs i).filterMap g ++ (share xs i).filterMap h)) :
    (xs.filterMap fun x => f x.2).Perm
      ((xs.filterMap fun x => g x.2) ++ xs.filterMap fun x => h x.2) := by
  classical
  refine List.perm_iff_count.mpr fun b => ?_
  rw [List.count_append, count_filterMap_eq_sum f, count_filterMap_eq_sum g,
    count_filterMap_eq_sum h, ← Finset.sum_add_distrib]
  refine Finset.sum_congr rfl fun i _ => ?_
  rw [← List.count_append]
  exact (split i).count_eq b

/-- What belongs to a thread is in the log. -/
theorem mem_of_mem_share {xs : List (Nat × α)} {i : Nat} {a : α} (h : a ∈ share xs i) :
    (i, a) ∈ xs := by
  obtain ⟨x, hx, heq⟩ := List.mem_filterMap.mp h
  split at heq
  · next hi => rwa [← hi, ← Option.some.inj heq]
  · cases heq

/-- What a reading finds first is what it finds first with some thread. -/
theorem exists_head_share {f : α → Option β} {b : β} : ∀ {xs : List (Nat × α)},
    (xs.filterMap fun x => f x.2).head? = some b →
      ∃ i, ((share xs i).filterMap f).head? = some b
  | [], h => by cases h
  | (j, a) :: xs, h => by
    rw [List.filterMap_cons] at h
    cases ha : f a with
    | some c =>
      refine ⟨j, ?_⟩
      rw [ha] at h
      rwa [share_cons_self, List.filterMap_cons_some ha]
    | none =>
      rw [ha] at h
      obtain ⟨i, hi⟩ := exists_head_share h
      refine ⟨i, ?_⟩
      by_cases hij : i = j
      · subst hij
        rwa [share_cons_self, List.filterMap_cons_none ha]
      · rwa [share_cons_of_ne hij]

/-! ## What came before -/

/-- Each entry of a list that grows at its head, with what came before it. -/
def pasts : List α → List (List α)
  | [] => []
  | a :: xs => (a :: xs) :: pasts xs

/-- Each entry of a log, with what came before it of the same thread. -/
def histories : List (Nat × α) → List (Nat × List α)
  | [] => []
  | (i, a) :: xs => (i, a :: share xs i) :: histories xs

theorem share_histories (i : Nat) :
    ∀ xs : List (Nat × α), share (histories xs) i = pasts (share xs i)
  | [] => rfl
  | (j, a) :: xs => by
    by_cases hj : i = j
    · subst hj
      rw [histories, share_cons_self, share_cons_self, pasts, share_histories i xs]
    · rw [histories, share_cons_of_ne hj, share_cons_of_ne hj, share_histories i xs]

theorem owners_histories : ∀ xs : List (Nat × α), owners (histories xs) = owners xs
  | [] => rfl
  | (i, a) :: xs => by
    have hxs := owners_histories xs
    simp only [owners, histories, List.map_cons, List.toFinset_cons] at hxs ⊢
    rw [hxs]

theorem filterMap_head_pasts (f : α → Option β) :
    ∀ xs : List α, (pasts xs).filterMap (fun past => past.head?.bind f) = xs.filterMap f
  | [] => rfl
  | a :: xs => by
    rw [pasts, List.filterMap_cons, List.filterMap_cons, filterMap_head_pasts f xs]
    rfl

theorem filterMap_head_histories (f : α → Option β) : ∀ xs : List (Nat × α),
    (histories xs).filterMap (fun x => x.2.head?.bind f) = xs.filterMap fun x => f x.2
  | [] => rfl
  | (i, a) :: xs => by
    rw [histories, List.filterMap_cons, List.filterMap_cons, filterMap_head_histories f xs]
    rfl

/-- A log that grows keeps its histories. -/
theorem histories_suffix (xs : List (Nat × α)) :
    ∀ ys : List (Nat × α), histories xs <:+ histories (ys ++ xs)
  | [] => List.suffix_refl _
  | (_, _) :: ys => (histories_suffix xs ys).trans (List.suffix_cons _ _)

end HiLo
