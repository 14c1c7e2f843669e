import Mathlib.Data.List.GetD
import Mathlib.Data.List.Pairwise
import Mathlib.Data.List.Sort

/-!
# Ranking by a score and a stamp

Stable sorting by a comparison function, and the order that compares a score first and an integer
stamp second. When the stamps of a list are distinct the ranking is determined by its elements
alone: it does not depend on their order in the list (`rank_eq_of_perm`), and it commutes with any
map that preserves the comparisons (`map_sort`). The prefix of a ranking is what a top-`k`
selection returns, so these are the facts that make such a selection independent of storage
order.
-/

namespace Ranking

open Std (TransCmp OrientedCmp)

section Sorting

variable {α β : Type}

/-- `a` comes no later than `b` under `cmp`. -/
def Le (cmp : α → α → Ordering) (a b : α) : Prop := (cmp a b).isLE = true

/-- The order of a comparison is decidable. -/
instance (cmp : α → α → Ordering) : DecidableRel (Le cmp) := fun a b =>
  inferInstanceAs (Decidable ((cmp a b).isLE = true))

/-- The order of a transitive comparison is transitive. -/
instance (cmp : α → α → Ordering) [TransCmp cmp] : IsTrans α (Le cmp) where
  trans _ _ _ := TransCmp.isLE_trans

/-- The order of an oriented comparison is total. -/
instance (cmp : α → α → Ordering) [OrientedCmp cmp] : Std.Total (Le cmp) where
  total a b := by
    by_cases h : (cmp a b).isLE = true
    · exact .inl h
    · have hlt : cmp b a = .lt := OrientedCmp.lt_of_not_isLE h
      exact .inr (by rw [Le, hlt]; rfl)

/-- The list in `cmp` order, elements that compare equal in their order of occurrence. -/
def sort (cmp : α → α → Ordering) (xs : List α) : List α := xs.insertionSort (Le cmp)

variable {cmp : α → α → Ordering}

/-- Sorting permutes the list. -/
theorem sort_perm (xs : List α) : (sort cmp xs).Perm xs := List.perm_insertionSort _ xs

/-- There is nothing to sort in the empty list. -/
@[simp] theorem sort_nil : sort cmp [] = [] := rfl

/-- Sorting keeps the members. -/
@[simp] theorem mem_sort {a : α} {xs : List α} : a ∈ sort cmp xs ↔ a ∈ xs :=
  (sort_perm xs).mem_iff

/-- Sorting keeps the length. -/
@[simp] theorem length_sort (xs : List α) : (sort cmp xs).length = xs.length :=
  (sort_perm xs).length_eq

/-- The result of sorting is in order. -/
theorem pairwise_sort [TransCmp cmp] (xs : List α) : (sort cmp xs).Pairwise (Le cmp) :=
  List.pairwise_insertionSort _ xs

/-- No two elements of the list compare equal. -/
def Distinct (cmp : α → α → Ordering) (xs : List α) : Prop := xs.Pairwise fun a b => cmp a b ≠ .eq

/-- Distinctness does not depend on the order of the list. -/
theorem Distinct.perm [OrientedCmp cmp] {xs ys : List α} (h : Distinct cmp xs)
    (hp : xs.Perm ys) : Distinct cmp ys :=
  List.Pairwise.perm h hp fun hne heq => hne (OrientedCmp.eq_symm heq)

/-- Two members of a distinct list that compare equal are the same element. -/
theorem Distinct.eq_of_mem [OrientedCmp cmp] {xs : List α} (h : Distinct cmp xs) {a b : α}
    (ha : a ∈ xs) (hb : b ∈ xs) (heq : cmp a b = .eq) : a = b := by
  by_contra hne
  have : Std.Symm fun a b => cmp a b ≠ .eq := ⟨fun _ _ hab hba => hab (OrientedCmp.eq_symm hba)⟩
  exact List.Pairwise.forall h ha hb hne heq

/-- A list in order whose elements are those of a distinct list is its sort. -/
theorem eq_sort_of_perm [TransCmp cmp] {xs ys : List α} (hd : Distinct cmp xs)
    (hs : ys.Pairwise (Le cmp)) (hp : ys.Perm xs) : ys = sort cmp xs := by
  apply List.Perm.eq_of_pairwise _ hs (pairwise_sort xs) (hp.trans (sort_perm xs).symm)
  intro a b ha hb hab hba
  exact hd.eq_of_mem (hp.mem_iff.1 ha) (mem_sort.1 hb) (OrientedCmp.isLE_antisymm hab hba)

/-- Sorting a distinct list does not depend on the order in which it is given. -/
theorem sort_eq_of_perm [TransCmp cmp] {xs ys : List α} (hd : Distinct cmp xs)
    (hp : xs.Perm ys) : sort cmp xs = sort cmp ys :=
  eq_sort_of_perm (hd.perm hp) (pairwise_sort xs) ((sort_perm xs).trans hp)

/-- Sorting commutes with a map that preserves the comparisons. -/
theorem map_sort {cmp' : β → β → Ordering} (f : α → β) (xs : List α)
    (h : ∀ a ∈ xs, ∀ b ∈ xs, cmp a b = cmp' (f a) (f b)) :
    (sort cmp xs).map f = sort cmp' (xs.map f) :=
  List.map_insertionSort _ _ f xs fun a ha b hb => by rw [Le, Le, h a ha b hb]

end Sorting

section Rank

variable {F α β : Type}

/-- The order by score under `cmp`, then by stamp. -/
def rankCmp (cmp : F → F → Ordering) (score : α → F) (stamp : α → ℕ) (a b : α) : Ordering :=
  (cmp (score a) (score b)).then (compare (stamp a) (stamp b))

/-- The list ranked by score under `cmp`, ties by stamp. -/
def rank (cmp : F → F → Ordering) (score : α → F) (stamp : α → ℕ) (xs : List α) : List α :=
  sort (rankCmp cmp score stamp) xs

variable {cmp : F → F → Ordering} {score : α → F} {stamp : α → ℕ}

/-- A comparison pulled back along a function is transitive again. -/
theorem transCmp_comap [TransCmp cmp] (f : α → F) : TransCmp fun a b => cmp (f a) (f b) where
  eq_swap := OrientedCmp.eq_swap
  isLE_trans := TransCmp.isLE_trans

/-- Comparing by score and then by stamp is transitive. -/
instance [TransCmp cmp] : TransCmp (rankCmp cmp score stamp) := by
  have h₁ : TransCmp fun a b => cmp (score a) (score b) := transCmp_comap score
  have h₂ : TransCmp fun a b => compare (stamp a) (stamp b) := transCmp_comap stamp
  exact inferInstanceAs (TransCmp (compareLex (fun a b => cmp (score a) (score b))
    fun a b => compare (stamp a) (stamp b)))

/-- A list with distinct stamps is distinct in the ranking order. -/
theorem distinct_of_stamps {xs : List α} (h : (xs.map stamp).Nodup) :
    Distinct (rankCmp cmp score stamp) xs := by
  refine (List.pairwise_map.1 h).imp fun hne heq => hne ?_
  exact Nat.compare_eq_eq.1 (Ordering.then_eq_eq.1 heq).2

/-- Ranking permutes the list. -/
theorem rank_perm (xs : List α) : (rank cmp score stamp xs).Perm xs := sort_perm xs

/-- Ranking keeps the members. -/
@[simp] theorem mem_rank {a : α} {xs : List α} : a ∈ rank cmp score stamp xs ↔ a ∈ xs := mem_sort

/-- Ranking keeps the length. -/
@[simp] theorem length_rank (xs : List α) : (rank cmp score stamp xs).length = xs.length :=
  length_sort xs

/-- With distinct stamps, the ranking does not depend on the order of the list. -/
theorem rank_eq_of_perm [TransCmp cmp] {xs ys : List α} (hd : (xs.map stamp).Nodup)
    (hp : xs.Perm ys) : rank cmp score stamp xs = rank cmp score stamp ys :=
  sort_eq_of_perm (distinct_of_stamps hd) hp

/-- In a ranking, an earlier element scores no worse than a later one, and with equal scores it
has the smaller stamp. -/
theorem pairwise_rank [TransCmp cmp] {xs : List α} (hd : (xs.map stamp).Nodup) :
    (rank cmp score stamp xs).Pairwise fun a b =>
      cmp (score a) (score b) = .lt ∨ cmp (score a) (score b) = .eq ∧ stamp a < stamp b := by
  have hs : (rank cmp score stamp xs).Pairwise (Le (rankCmp cmp score stamp)) := pairwise_sort xs
  have hne : ((rank cmp score stamp xs).map stamp).Nodup :=
    ((rank_perm xs).map stamp).nodup_iff.2 hd
  refine (hs.and (List.pairwise_map.1 hne)).imp fun {a b} ⟨hle, hab⟩ => ?_
  rw [Le, rankCmp] at hle
  rcases hc : cmp (score a) (score b) with _ | _ | _
  · exact .inl rfl
  · rw [hc, Ordering.eq_then, Nat.isLE_compare] at hle
    exact .inr ⟨rfl, lt_of_le_of_ne hle hab⟩
  · rw [hc] at hle
    cases hle

/-- An element that ranks below all others comes first. -/
theorem rank_eq_cons [TransCmp cmp] {xs : List α} {a : α} (ha : a ∈ xs)
    (hlt : ∀ b ∈ xs, b ≠ a → rankCmp cmp score stamp a b = .lt) :
    ∃ rest, rank cmp score stamp xs = a :: rest := by
  have hsorted : (rank cmp score stamp xs).Pairwise (Le (rankCmp cmp score stamp)) :=
    pairwise_sort xs
  have hmem : ∀ b, b ∈ rank cmp score stamp xs ↔ b ∈ xs := fun b => mem_rank
  generalize rank cmp score stamp xs = ys at hsorted hmem ⊢
  cases ys with
  | nil => exact absurd ((hmem a).2 ha) List.not_mem_nil
  | cons b rest =>
    refine ⟨rest, ?_⟩
    by_cases heq : b = a
    · rw [heq]
    · -- Another first element would be no worse than this one.
      have hrest : a ∈ rest := (List.mem_cons.1 ((hmem a).2 ha)).resolve_left (Ne.symm heq)
      have hle : Le (rankCmp cmp score stamp) b a := (List.pairwise_cons.1 hsorted).1 a hrest
      have hb : b ∈ xs := (hmem b).1 List.mem_cons_self
      exact absurd hle (OrientedCmp.not_isLE_of_lt (hlt b hb heq))

/-- Ranking commutes with a map that keeps the scores and preserves the order of the stamps. -/
theorem map_rank {score' : β → F} {stamp' : β → ℕ} (f : α → β) (xs : List α)
    (hscore : ∀ a ∈ xs, score' (f a) = score a)
    (hstamp : ∀ a ∈ xs, ∀ b ∈ xs,
      compare (stamp' (f a)) (stamp' (f b)) = compare (stamp a) (stamp b)) :
    (rank cmp score stamp xs).map f = rank cmp score' stamp' (xs.map f) :=
  map_sort f xs fun a ha b hb => by
    rw [rankCmp, rankCmp, hscore a ha, hscore b hb, hstamp a ha b hb]

end Rank

/-- One increasing list of stamps is a renaming of another one of the same length, and the renaming
keeps their order. -/
theorem exists_renaming {xs ys : List ℕ} (hxs : xs.Pairwise (· < ·)) (hys : ys.Pairwise (· < ·))
    (hlen : xs.length = ys.length) :
    ∃ ρ : ℕ → ℕ, StrictMonoOn ρ {n | n ∈ xs} ∧ ys = xs.map ρ := by
  have hnodup : xs.Nodup := hxs.imp Nat.ne_of_lt
  -- The stamp at a position is renamed to the one at the same position of the other list.
  have hget : ∀ i (hi : i < xs.length), ys.getD (xs.idxOf xs[i]) 0 = ys[i] := by
    intro i hi
    rw [hnodup.idxOf_getElem i hi, List.getD_eq_getElem]
  refine ⟨fun n => ys.getD (xs.idxOf n) 0, ?_, ?_⟩
  · intro m hm n hn hmn
    obtain ⟨i, hi, rfl⟩ := List.getElem_of_mem hm
    obtain ⟨j, hj, rfl⟩ := List.getElem_of_mem hn
    have hij : i < j := by
      by_contra hle
      rcases Nat.eq_or_lt_of_le (Nat.le_of_not_lt hle) with rfl | hji
      · exact Nat.lt_irrefl _ hmn
      · have hlt := List.pairwise_iff_getElem.1 hxs j i hj hi hji
        omega
    show ys.getD (xs.idxOf xs[i]) 0 < ys.getD (xs.idxOf xs[j]) 0
    rw [hget i hi, hget j hj]
    exact List.pairwise_iff_getElem.1 hys i j _ _ hij
  · apply List.ext_getElem
    · rw [List.length_map, hlen]
    · intro i hi hi'
      rw [List.getElem_map, hget i (hlen ▸ hi)]

/-- Numbers along a list with increasing stamps compare as the stamps do. -/
theorem compare_zipIdx {α : Type} {stamp : α → ℕ} {xs : List α}
    (h : xs.Pairwise fun a b => stamp a < stamp b) {p q : α × ℕ} (hp : p ∈ xs.zipIdx)
    (hq : q ∈ xs.zipIdx) : compare (stamp p.1) (stamp q.1) = compare p.2 q.2 := by
  obtain ⟨hi, hp'⟩ := List.getElem?_eq_some_iff.1 (List.mem_zipIdx_iff_getElem?.1 hp)
  obtain ⟨hj, hq'⟩ := List.getElem?_eq_some_iff.1 (List.mem_zipIdx_iff_getElem?.1 hq)
  have hlt : ∀ {i j : ℕ} (hi : i < xs.length) (hj : j < xs.length), i < j →
      stamp xs[i] < stamp xs[j] := fun hi hj hij => List.pairwise_iff_getElem.1 h _ _ hi hj hij
  rw [← hp', ← hq']
  rcases Nat.lt_trichotomy p.2 q.2 with hpq | hpq | hpq
  · rw [Nat.compare_eq_lt.2 hpq, Nat.compare_eq_lt.2 (hlt hi hj hpq)]
  · have hstamp : stamp xs[p.2] = stamp xs[q.2] := by
      congr 2
    rw [Nat.compare_eq_eq.2 hpq, Nat.compare_eq_eq.2 hstamp]
  · rw [Nat.compare_eq_gt.2 hpq, Nat.compare_eq_gt.2 (hlt hj hi hpq)]

/-- The numbers of a numbered list increase, also when it is filtered. -/
theorem pairwise_filter_zipIdx {α : Type} (xs : List α) (p : α × ℕ → Bool) :
    (xs.zipIdx.filter p).Pairwise fun a b => a.2 < b.2 := by
  have hnumbers : (xs.zipIdx.map Prod.snd).Pairwise (· < ·) := by
    rw [List.zipIdx_map_snd, ← List.range_eq_range']
    exact List.pairwise_lt_range
  exact (List.pairwise_map.1 hnumbers).filter p

/-- Filtering numbered elements by a property of the elements, and dropping the numbers. -/
theorem map_fst_filter_zipIdx {α : Type} (xs : List α) (p : α → Bool) :
    (xs.zipIdx.filter fun q => p q.1).map Prod.fst = xs.filter p := by
  calc (xs.zipIdx.filter fun q => p q.1).map Prod.fst
      = (xs.zipIdx.map Prod.fst).filter p := by
        rw [List.filter_map]
        rfl
    _ = xs.filter p := by rw [List.zipIdx_map_fst]

end Ranking
