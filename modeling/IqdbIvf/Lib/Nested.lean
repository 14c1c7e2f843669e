import Mathlib.Data.List.NodupEquivFin
import Mathlib.Order.WellFounded
import IqdbIvf.Lib.Ranking

/-!
# Rankings of nested lists

When a list of candidates grows, its ranking only gets longer in between: the ranking of a part is a
sublist of the ranking of the whole (`rank_sublist`). Two facts about the first `n` elements follow.
An element of the part that is among the first `n` of the whole is among the first `n` of the part
(`mem_take_of_sublist`), so competitors cannot drive a true best element out. And what stands at a
position in the ranking of the whole is no worse than what stands there in that of the part
(`le_of_sublist`).
-/

namespace Ranking

open Std (TransCmp OrientedCmp)

variable {F α : Type} {cmp : F → F → Ordering} {score : α → F} {stamp : α → ℕ} {xs ys : List α}

/-- The ranking of a part is a sublist of the ranking of the whole. -/
theorem rank_sublist [TransCmp cmp] (hd : (ys.map stamp).Nodup) (h : xs.Subperm ys) :
    (rank cmp score stamp xs).Sublist (rank cmp score stamp ys) := by
  classical
  have hys : ys.Nodup := List.Nodup.of_map _ hd
  obtain ⟨l, hperm, hsub⟩ := h
  have hxs : xs.Nodup := (hperm.nodup_iff).1 (hys.sublist hsub)
  have hstamps : (xs.map stamp).Nodup :=
    ((hperm.map stamp).nodup_iff).1 (hd.sublist (hsub.map stamp))
  -- The ranking of the part is what is left of the ranking of the whole without the others.
  have hpart : ((rank cmp score stamp ys).filter fun a => a ∈ xs).Perm xs := by
    have hnodup : (rank cmp score stamp ys).Nodup := ((rank_perm ys).nodup_iff).2 hys
    rw [List.perm_ext_iff_of_nodup (hnodup.filter _) hxs]
    intro a
    rw [List.mem_filter, mem_rank, decide_eq_true_eq]
    exact and_iff_right_of_imp fun ha => hsub.subset (hperm.mem_iff.2 ha)
  have hsorted : ((rank cmp score stamp ys).filter fun a => a ∈ xs).Pairwise
      (Le (rankCmp cmp score stamp)) := (pairwise_sort ys).filter _
  have heq : (rank cmp score stamp ys).filter (fun a => a ∈ xs) = rank cmp score stamp xs :=
    eq_sort_of_perm (distinct_of_stamps hstamps) hsorted hpart
  rw [← heq]
  exact List.filter_sublist

/-- An element of a sublist that is among the first `n` of the list is among the first `n` of the
sublist. -/
theorem mem_take_of_sublist {n : ℕ} (h : xs.Sublist ys) (hd : ys.Nodup) {a : α} (ha : a ∈ xs)
    (hn : a ∈ ys.take n) : a ∈ xs.take n := by
  obtain ⟨f, hf⟩ := List.sublist_iff_exists_orderEmbedding_getElem?_eq.1 h
  obtain ⟨i, hi⟩ := List.mem_iff_getElem?.1 ha
  obtain ⟨j, hj⟩ := List.mem_iff_getElem?.1 hn
  rw [List.getElem?_take] at hj
  split_ifs at hj with hjn
  -- The position in the sublist is not behind the one in the list.
  have hfi : j = f i := by
    obtain ⟨hlt, -⟩ := List.getElem?_eq_some_iff.1 hj
    exact (List.getElem?_inj hlt hd).1 (by rw [hj, ← hf, hi])
  have hle : i ≤ f i := StrictMono.le_apply f.strictMono
  apply List.mem_iff_getElem?.2
  exact ⟨i, by rw [List.getElem?_take, if_pos (by omega), hi]⟩

/-- Among the first `n` elements, what stands at a position of a list in order comes no later than
what stands there in a sublist. -/
theorem le_of_sublist {R : α → α → Prop} {n i : ℕ} (h : xs.Sublist ys) (hs : ys.Pairwise R) {a : α}
    (ha : (xs.take n)[i]? = some a) : ∃ b, (ys.take n)[i]? = some b ∧ (b = a ∨ R b a) := by
  obtain ⟨f, hf⟩ := List.sublist_iff_exists_orderEmbedding_getElem?_eq.1 h
  rw [List.getElem?_take] at ha
  split_ifs at ha with hin
  rw [hf] at ha
  obtain ⟨hlt, rfl⟩ := List.getElem?_eq_some_iff.1 ha
  have hle : i ≤ f i := StrictMono.le_apply f.strictMono
  refine ⟨ys[i], ?_, ?_⟩
  · rw [List.getElem?_take, if_pos hin, List.getElem?_eq_getElem (by omega)]
  · rcases Nat.eq_or_lt_of_le hle with heq | hlt'
    · left
      congr 1
    · right
      exact List.pairwise_iff_getElem.1 hs _ _ _ _ hlt'

end Ranking
