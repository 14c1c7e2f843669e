import IqdbIvf.Lib.Fronts

/-!
# Selections of a reordered list

Where scores tie, the stamps decide what is selected. How much that can change is what this file is
about: two lists in order with the same elements agree up to ties (`forall₂_eq_of_perm`), and so the
selections from a list with other stamps have the same scores, position by position, and the same
elements before the score of the last one (`best_reordered`).
-/

namespace Ranking

open Std (TransCmp OrientedCmp ReflCmp)

variable {α : Type} {cmp : α → α → Ordering} {xs ys : List α}

/-- What stands at a position of a list in order is no worse than what stands there in another order
of the same elements. -/
theorem getElem_le_of_perm [TransCmp cmp] (hxs : xs.Pairwise (Le cmp)) (hys : ys.Pairwise (Le cmp))
    (hp : xs.Perm ys) {i : ℕ} (hi : i < xs.length) (hi' : i < ys.length) : Le cmp xs[i] ys[i] := by
  by_contra hnot
  have hlt : cmp ys[i] xs[i] = .lt := OrientedCmp.lt_of_not_isLE hnot
  let better : α → Bool := fun a => cmp a xs[i] == .lt
  -- In the first list, at most `i` elements are better than the one at the position.
  have hfew : xs.countP better ≤ i := by
    have hback : (xs.drop i).countP better = 0 := by
      rw [List.countP_eq_zero]
      intro a ha hbetter
      obtain ⟨j, hj, rfl⟩ := List.getElem_of_mem ha
      rw [List.length_drop] at hj
      rw [List.getElem_drop, beq_iff_eq] at hbetter
      have hle : Le cmp xs[i] xs[i + j] := by
        rcases Nat.eq_zero_or_pos j with rfl | hpos
        · exact ReflCmp.isLE_rfl
        · exact List.pairwise_iff_getElem.1 hxs i (i + j) hi (by omega) (by omega)
      exact OrientedCmp.not_isLE_of_lt hbetter hle
    calc xs.countP better = (xs.take i).countP better + (xs.drop i).countP better := by
          rw [← List.countP_append, List.take_append_drop]
      _ ≤ (xs.take i).length + 0 := by
          rw [hback]
          exact Nat.add_le_add_right List.countP_le_length 0
      _ ≤ i := List.length_take_le i xs
  -- In the second one, more are.
  have hmany : i + 1 ≤ ys.countP better := by
    have hfront : (ys.take (i + 1)).countP better = (ys.take (i + 1)).length := by
      rw [List.countP_eq_length]
      intro a ha
      obtain ⟨j, hj, rfl⟩ := List.getElem_of_mem ha
      rw [List.length_take] at hj
      rw [List.getElem_take, beq_iff_eq]
      rcases Nat.lt_or_ge j i with hji | hij
      · have hle : Le cmp ys[j] ys[i] := List.pairwise_iff_getElem.1 hys j i (by omega) hi' hji
        exact TransCmp.lt_of_isLE_of_lt hle hlt
      · obtain rfl : j = i := by omega
        exact hlt
    calc i + 1 = (ys.take (i + 1)).countP better := by
          rw [hfront, List.length_take]
          omega
      _ ≤ (ys.take (i + 1)).countP better + (ys.drop (i + 1)).countP better :=
          Nat.le_add_right _ _
      _ = ys.countP better := by rw [← List.countP_append, List.take_append_drop]
  have hcount := hp.countP_eq better
  omega

/-- Two lists in order with the same elements agree up to ties. -/
theorem forall₂_eq_of_perm [TransCmp cmp] (hxs : xs.Pairwise (Le cmp)) (hys : ys.Pairwise (Le cmp))
    (hp : xs.Perm ys) : List.Forall₂ (fun a b => cmp a b = .eq) xs ys := by
  rw [List.forall₂_iff_get]
  refine ⟨hp.length_eq, fun i hi hi' => ?_⟩
  exact OrientedCmp.isLE_antisymm (getElem_le_of_perm hxs hys hp hi hi')
    (getElem_le_of_perm hys hxs hp.symm hi' hi)

end Ranking

namespace Selection

open Ranking
open Std (TransCmp OrientedCmp)

variable {F α γ : Type} {cmp : F → F → Ordering} {stamp : α → ℕ} {n : ℕ} {xs ys : List α}
  {out : List (α × F)}

/-- The scores along a ranking are in order. -/
theorem pairwise_map_rank [TransCmp cmp] {f : α → F} (hd : (xs.map stamp).Nodup) :
    ((rank cmp f stamp xs).map f).Pairwise (Le cmp) := by
  apply List.pairwise_map.2
  refine (pairwise_rank hd).imp fun h => ?_
  rcases h with hlt | ⟨heq, -⟩
  · rw [Le, hlt]
    rfl
  · rw [Le, heq]
    rfl

/-- An element that scores strictly better than one of the first `n` is among them. -/
theorem mem_take_rank_of_lt [TransCmp cmp] {f : α → F} (hd : (xs.map stamp).Nodup) {b c : α}
    (hb : b ∈ xs) (hc : c ∈ (rank cmp f stamp xs).take n) (hlt : cmp (f b) (f c) = .lt) :
    b ∈ (rank cmp f stamp xs).take n := by
  have hsorted : (rank cmp f stamp xs).Pairwise fun a b => Le cmp (f a) (f b) :=
    List.pairwise_map.1 (pairwise_map_rank hd)
  have hrank : b ∈ rank cmp f stamp xs := mem_rank.2 hb
  rw [← List.take_append_drop n (rank cmp f stamp xs)] at hsorted hrank
  rcases List.mem_append.1 hrank with hfront | hback
  · exact hfront
  · have hle : Le cmp (f c) (f b) := (List.pairwise_append.1 hsorted).2.2 c hc b hback
    exact absurd hle (OrientedCmp.not_isLE_of_lt hlt)

/-- A selection by a score of keys, from a list with the same keys and other stamps: the scores are
the same up to ties, and so are the keys before the last score. -/
theorem best_reordered [TransCmp cmp] (key : α → γ) (score : γ → Option F)
    (hd : (xs.map stamp).Nodup) (hd' : (ys.map stamp).Nodup) (hp : (xs.map key).Perm (ys.map key))
    (h : best cmp (fun a => score (key a)) stamp n xs = some out) :
    ∃ out', best cmp (fun a => score (key a)) stamp n ys = some out' ∧
      List.Forall₂ (fun p q => cmp p.2 q.2 = .eq) out out' ∧
      ∀ p ∈ out, ∀ q ∈ out, cmp p.2 q.2 = .lt →
        (key p.1, p.2) ∈ out'.map fun r => (key r.1, r.2) := by
  by_cases hnil : xs = []
  · obtain rfl : ys = [] := by
      rw [hnil] at hp
      exact List.map_eq_nil_iff.1 hp.symm.eq_nil
    have hempty : best cmp (fun a => score (key a)) stamp n [] = some [] :=
      (Plan.direct fun a => score (key a)).run_nil
    rw [hnil, hempty] at h
    obtain rfl := Option.some.inj h
    exact ⟨[], hempty, .nil, nofun⟩
  obtain ⟨f, hf⟩ : ∃ f : γ → F, ∀ a ∈ xs, score (key a) = some (f (key a)) := by
    obtain ⟨x₀, hx₀⟩ := List.exists_mem_of_ne_nil xs hnil
    rcases best_cases h with ⟨hxs, -⟩ | ⟨φ, hφ⟩
    · exact absurd hxs hnil
    · refine ⟨fun c => (score c).getD (φ x₀), fun a ha => ?_⟩
      show score (key a) = some ((score (key a)).getD (φ x₀))
      rw [hφ a ha]
      rfl
  have hf' : ∀ b ∈ ys, score (key b) = some (f (key b)) := by
    intro b hb
    obtain ⟨a, ha, hkey⟩ := List.mem_map.1 (hp.symm.subset (List.mem_map_of_mem hb))
    rw [← hkey]
    exact hf a ha
  rw [best_of_total hf] at h
  obtain rfl := Option.some.inj h
  -- The scores along the two rankings are the same up to ties.
  have hscores : List.Forall₂ (fun c d => cmp c d = .eq)
      ((rank cmp (fun a => f (key a)) stamp xs).map fun a => f (key a))
      ((rank cmp (fun a => f (key a)) stamp ys).map fun a => f (key a)) := by
    apply forall₂_eq_of_perm (pairwise_map_rank hd) (pairwise_map_rank hd')
    have hkeys : ∀ zs : List α, zs.map (fun a => f (key a)) = (zs.map key).map f := fun zs => by
      rw [List.map_map]
      rfl
    refine ((rank_perm xs).map _).trans (List.Perm.trans ?_ ((rank_perm ys).map _).symm)
    rw [hkeys, hkeys]
    exact hp.map f
  have hpairs : List.Forall₂ (fun p q : α × F => cmp p.2 q.2 = .eq)
      (((rank cmp (fun a => f (key a)) stamp xs).take n).map fun a => (a, f (key a)))
      (((rank cmp (fun a => f (key a)) stamp ys).take n).map fun a => (a, f (key a))) := by
    rw [List.forall₂_map_left_iff, List.forall₂_map_right_iff] at hscores ⊢
    exact List.forall₂_take n hscores
  refine ⟨_, best_of_total hf', hpairs, ?_⟩
  intro p hmem q hq hlt
  obtain ⟨a, ha, rfl⟩ := List.mem_map.1 hmem
  obtain ⟨q', hq', heq⟩ : ∃ q' ∈ ((rank cmp (fun a => f (key a)) stamp ys).take n).map
      (fun a => (a, f (key a))), cmp q.2 q'.2 = .eq := by
    obtain ⟨i, hi, rfl⟩ := List.getElem_of_mem hq
    have hi' := hpairs.length_eq ▸ hi
    exact ⟨_, List.getElem_mem hi', (List.forall₂_iff_get.1 hpairs).2 i hi hi'⟩
  obtain ⟨c, hc, rfl⟩ := List.mem_map.1 hq'
  obtain ⟨b, hb, hkey⟩ := List.mem_map.1
    (hp.subset (List.mem_map_of_mem (mem_rank.1 (List.mem_of_mem_take ha))))
  have hbetter : cmp (f (key b)) (f (key c)) = .lt := by
    rw [hkey]
    exact TransCmp.lt_of_lt_of_eq hlt heq
  have hsel := mem_take_rank_of_lt hd' hb hc hbetter
  rw [List.map_map]
  refine List.mem_map.2 ⟨b, hsel, ?_⟩
  show (key b, f (key b)) = (key a, f (key a))
  rw [hkey]

end Selection
