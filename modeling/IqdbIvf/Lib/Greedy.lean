import Mathlib.Algebra.BigOperators.Group.Finset.Piecewise
import Mathlib.Algebra.Order.BigOperators.Group.Finset
import Mathlib.Data.Finset.Max
import Mathlib.Data.List.Sort

/-!
# Greedy choices of a given size

Among the sets of at most `n` elements, a set of `n` elements that no other element exceeds has the
greatest sum (`Largest.sum_le`): what the sets do not share can be exchanged, element by element,
for elements that are at least as great. The first `n` elements of a list in descending order are
such a set (`largest_take`).
-/

set_option linter.unusedSectionVars false

namespace Greedy

variable {ι M : Type} [DecidableEq ι] [LinearOrder M]

/-- `L` is a set of elements of `U` that are at least as great as all others of `U`. -/
structure Largest (f : ι → M) (U L : Finset ι) : Prop where
  /-- The elements are taken from `U`. -/
  subset : L ⊆ U
  /-- No element that was left is greater than one that was taken. -/
  le_of_mem : ∀ a ∈ L, ∀ b ∈ U, b ∉ L → f b ≤ f a

section Sum

variable [AddCommMonoid M] [IsOrderedAddMonoid M] [CanonicallyOrderedAdd M]
variable {f : ι → M} {U L S : Finset ι}

/-- A set with no fewer elements, all of them at least as great as those of another set, has at
least its sum. -/
theorem sum_le_sum_of_forall_le (hcard : S.card ≤ L.card) (hle : ∀ a ∈ L, ∀ b ∈ S, f b ≤ f a) :
    ∑ b ∈ S, f b ≤ ∑ a ∈ L, f a := by
  rcases S.eq_empty_or_nonempty with rfl | hS
  · rw [Finset.sum_empty]
    exact zero_le
  obtain ⟨m, hm, hmax⟩ := S.exists_max_image f hS
  calc ∑ b ∈ S, f b ≤ S.card • f m := Finset.sum_le_card_nsmul S f (f m) hmax
    _ ≤ L.card • f m := nsmul_le_nsmul_left zero_le hcard
    _ ≤ ∑ a ∈ L, f a := Finset.card_nsmul_le_sum L f (f m) fun a ha => hle a ha m hm

/-- The largest elements have the greatest sum of all sets with at most as many elements. -/
theorem Largest.sum_le (h : Largest f U L) (hS : S ⊆ U) (hcard : S.card ≤ L.card) :
    ∑ b ∈ S, f b ≤ ∑ a ∈ L, f a := by
  -- The elements of both sets cancel, and the others are compared one with one.
  have hrest : ∑ b ∈ S \ L, f b ≤ ∑ a ∈ L \ S, f a := by
    apply sum_le_sum_of_forall_le
    · have hSL := Finset.card_sdiff_add_card_inter S L
      have hLS := Finset.card_sdiff_add_card_inter L S
      rw [Finset.inter_comm] at hLS
      omega
    · intro a ha b hb
      obtain ⟨hbS, hbL⟩ := Finset.mem_sdiff.1 hb
      exact h.le_of_mem a (Finset.mem_sdiff.1 ha).1 b (hS hbS) hbL
  calc ∑ b ∈ S, f b = ∑ b ∈ S ∩ L, f b + ∑ b ∈ S \ L, f b :=
        (Finset.sum_inter_add_sum_sdiff S L f).symm
    _ ≤ ∑ a ∈ L ∩ S, f a + ∑ a ∈ L \ S, f a := by
        rw [Finset.inter_comm L S]
        exact add_le_add_right hrest _
    _ = ∑ a ∈ L, f a := Finset.sum_inter_add_sum_sdiff L S f

end Sum

/-- The elements of `U` in descending order of `f`. -/
noncomputable def descending (f : ι → M) (U : Finset ι) : List ι :=
  U.toList.insertionSort fun a b => f b ≤ f a

variable (f : ι → M) (U : Finset ι)

/-- The list in descending order has the elements of the set. -/
theorem descending_perm : (descending f U).Perm U.toList := List.perm_insertionSort _ _

/-- The list in descending order has no duplicates. -/
theorem descending_nodup : (descending f U).Nodup :=
  (descending_perm f U).nodup_iff.2 U.nodup_toList

/-- The list in descending order is as long as the set is large. -/
theorem length_descending : (descending f U).length = U.card := by
  rw [(descending_perm f U).length_eq, Finset.length_toList]

/-- The values of the list in descending order are the sorted values of any list of the set. -/
theorem map_descending {xs : List ι} (hxs : xs.Perm U.toList) :
    (descending f U).map f = (xs.map f).insertionSort fun a b => b ≤ a := by
  have hsorted : ((descending f U).map f).Pairwise fun a b => b ≤ a := by
    rw [List.pairwise_map]
    exact List.pairwise_insertionSort (fun a b => f b ≤ f a) _
  apply List.Perm.eq_of_pairwise' hsorted (List.pairwise_insertionSort _ _)
  exact ((descending_perm f U).trans hxs.symm).map f |>.trans (List.perm_insertionSort _ _).symm

/-- The first elements of the list in descending order are the largest ones. -/
theorem largest_take (n : ℕ) : Largest f U ((descending f U).take n).toFinset := by
  constructor
  · intro a ha
    have hmem := List.mem_of_mem_take (List.mem_toFinset.1 ha)
    exact Finset.mem_toList.1 ((descending_perm f U).mem_iff.1 hmem)
  · intro a ha b hb hnot
    have hpairwise : (descending f U).Pairwise fun a b => f b ≤ f a :=
      List.pairwise_insertionSort _ _
    rw [← List.take_append_drop n (descending f U), List.pairwise_append] at hpairwise
    have hmem : b ∈ descending f U := (descending_perm f U).mem_iff.2 (Finset.mem_toList.2 hb)
    rw [← List.take_append_drop n (descending f U), List.mem_append] at hmem
    rcases hmem with htake | hdrop
    · exact absurd (List.mem_toFinset.2 htake) hnot
    · exact hpairwise.2.2 a (List.mem_toFinset.1 ha) b hdrop

/-- There are as many first elements as are taken, while there are enough. -/
theorem card_take {n : ℕ} (hn : n ≤ U.card) : ((descending f U).take n).toFinset.card = n := by
  rw [List.toFinset_card_of_nodup ((descending_nodup f U).sublist (List.take_sublist _ _)),
    List.length_take, length_descending, Nat.min_eq_left hn]

/-- The sum of the first elements is the sum of the first values. -/
theorem sum_take [AddCommMonoid M] (n : ℕ) :
    ∑ a ∈ ((descending f U).take n).toFinset, f a = (((descending f U).map f).take n).sum := by
  rw [List.sum_toFinset f ((descending_nodup f U).sublist (List.take_sublist _ _)), List.map_take]

end Greedy
