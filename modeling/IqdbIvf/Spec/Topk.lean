import IqdbIvf.Model.Topk
import IqdbIvf.Spec.SinglePrecision

/-!
# Top-`k` selection

`select_topk_indices` is a full sort, cut after `k` positions: its heap keeps the first entries of
the stream's sort. With distinct sequence numbers no two candidates are equal, so the candidates
that are selected, and their order, do not depend on the order in which they are given.
-/

set_option linter.unusedSectionVars false

namespace IqdbIvf

open Outcome Ranking

section Selection

variable {F32 : Type} [Arith F32] {α : Type}

/-- Selecting from the scores and the stamps of a list ranks it together with the positions, and
returns the first `k` positions. -/
theorem selectTopkIndices_eq (score : α → F32) (stamp : α → ℕ) (k : ℕ) {xs : List α}
    (hd : (xs.map stamp).Nodup) :
    selectTopkIndices (xs.map score) (xs.map stamp) k =
      .ok (((rank Arith.totalCmp (fun p : α × ℕ => score p.1) (fun p => stamp p.1) xs.zipIdx).take
        k).map Prod.snd) := by
  unfold selectTopkIndices
  rw [debugAssert_of (by simp), ok_bind]
  by_cases hzero : k = 0 ∨ xs = []
  · -- Nothing is asked for, or there is nothing.
    have hcond : (decide (k = 0) || (xs.map score).isEmpty) = true := by simpa using hzero
    rw [if_pos hcond]
    rcases hzero with rfl | rfl
    · rfl
    · simp [rank]
  have hcond : ¬ (decide (k = 0) || (xs.map score).isEmpty) = true := by simpa using hzero
  rw [if_neg hcond]
  -- The heap entries are the images of the elements with their positions.
  let entry : α × ℕ → Scored F32 := fun p => ⟨score p.1, stamp p.1, p.2⟩
  let ranked : List (α × ℕ) :=
    rank Arith.totalCmp (fun p : α × ℕ => score p.1) (fun p => stamp p.1) xs.zipIdx
  have hentries : (((xs.map score).zip (xs.map stamp)).zipIdx.map fun p =>
      (⟨p.1.1, p.1.2, p.2⟩ : Scored F32)) = xs.zipIdx.map entry := by
    rw [List.zip_map', List.zipIdx_map, List.map_map]
    rfl
  have hdistinct : Distinct (@Scored.cmpKey F32 _) (xs.zipIdx.map entry) := by
    have hstamps : ((xs.zipIdx.map entry).map Scored.seq).Nodup := by
      rw [List.map_map]
      have hcomp : (xs.zipIdx.map (Scored.seq ∘ entry)) = (xs.zipIdx.map Prod.fst).map stamp := by
        rw [List.map_map]
        rfl
      rw [hcomp, List.zipIdx_map_fst]
      exact hd
    exact distinct_of_stamps hstamps
  -- The bounded heap keeps the first entries of the sort, and a sort commutes with the pairing.
  have hselect : BoundedHeap.select (@Scored.cmpKey F32 _) (min k (xs.map score).length)
      (xs.zipIdx.map entry) =
      (sort (@Scored.cmpKey F32 _) (xs.zipIdx.map entry)).take (min k (xs.map score).length) :=
    BoundedHeap.select_eq _ hdistinct
  have hsort : sort (@Scored.cmpKey F32 _) (xs.zipIdx.map entry) = ranked.map entry :=
    (map_sort entry _ fun _ _ _ _ => rfl).symm
  have hlen : ranked.length = (xs.map score).length := by
    rw [length_rank, List.length_zipIdx, List.length_map]
  rw [hentries]
  show Except.ok ((BoundedHeap.select (@Scored.cmpKey F32 _) (min k (xs.map score).length)
    (xs.zipIdx.map entry)).map Scored.idx) = _
  rw [hselect, hsort, ← List.map_take, List.map_map, ← hlen, ← List.take_eq_take_min]
  rfl

/-- `select_topk_indices` over the scores and the stamps of a list: the positions of the first `k`
elements of the ranking. -/
theorem selectTopkIndices_spec (score : α → F32) (stamp : α → ℕ) (k : ℕ) {xs : List α}
    (hd : (xs.map stamp).Nodup) :
    ∃ T : List (α × ℕ),
      selectTopkIndices (xs.map score) (xs.map stamp) k = .ok (T.map Prod.snd) ∧
      T.map Prod.fst = (rank Arith.totalCmp score stamp xs).take k ∧
      ∀ p ∈ T, xs[p.2]? = some p.1 := by
  refine ⟨_, selectTopkIndices_eq score stamp k hd, ?_, ?_⟩
  · have hmap : (rank Arith.totalCmp (fun p : α × ℕ => score p.1) (fun p => stamp p.1)
        xs.zipIdx).map Prod.fst = rank Arith.totalCmp score stamp (xs.zipIdx.map Prod.fst) :=
      map_rank Prod.fst _ (fun _ _ => rfl) fun _ _ _ _ => rfl
    rw [List.map_take, hmap, List.zipIdx_map_fst]
  · intro p hp
    have hmem : p ∈ xs.zipIdx := mem_rank.1 (List.mem_of_mem_take hp)
    exact List.mem_zipIdx_iff_getElem?.1 hmem

/-- `select_topk_indices` with the positions as stamps: the stamps of the first `k` elements of the
ranking. -/
theorem selectTopkIndices_range (score : α → F32) {stamp : α → ℕ} (k : ℕ) {xs : List α}
    (hstamps : xs.map stamp = List.range xs.length) :
    selectTopkIndices (xs.map score) (List.range xs.length) k =
      .ok (((rank Arith.totalCmp score stamp xs).take k).map stamp) := by
  have hnodup : (xs.map stamp).Nodup := by
    rw [hstamps]
    exact List.nodup_range
  obtain ⟨T, hselect, hrank, hT⟩ := selectTopkIndices_spec score stamp k hnodup
  -- The stamp of what stands at a chosen position is the position.
  have hpos : T.map Prod.snd = (T.map Prod.fst).map stamp := by
    rw [List.map_map]
    apply List.map_congr_left
    intro p hp
    have hget : (xs.map stamp)[p.2]? = some (stamp p.1) := by
      rw [List.getElem?_map, hT p hp, Option.map_some]
    rw [hstamps] at hget
    obtain ⟨hlt, heq⟩ := List.getElem?_eq_some_iff.1 hget
    rwa [List.getElem_range] at heq
  rw [← hstamps, hselect, hpos, hrank]

/-- The positions of a list of distances, sorted by distance and then by sequence number. -/
def sortedPositions (distances : List F32) (seqs : List ℕ) : List ℕ :=
  (rank Arith.totalCmp (fun p : (F32 × ℕ) × ℕ => p.1.1) (fun p => p.1.2)
    (distances.zip seqs).zipIdx).map Prod.snd

/-- The pairs at the given positions. -/
def PairsAt (distances : List F32) (seqs : List ℕ) : List ℕ → List (F32 × ℕ) → Prop :=
  List.Forall₂ fun i p => (distances.zip seqs)[i]? = some p

/-- Selecting is sorting, cut after `k` positions. The pairs at the positions are the first `k` of
the ranking. -/
theorem selectTopkIndices_sorted {distances : List F32} {seqs : List ℕ}
    (hlen : distances.length = seqs.length) (hseqs : seqs.Nodup) (k : ℕ) :
    let chosen := (sortedPositions distances seqs).take (min k distances.length)
    selectTopkIndices distances seqs k = .ok chosen ∧
    PairsAt distances seqs chosen
      ((rank Arith.totalCmp Prod.fst Prod.snd (distances.zip seqs)).take k) := by
  intro chosen
  have hdistances : (distances.zip seqs).map Prod.fst = distances := List.map_fst_zip hlen.le
  have hstamps : (distances.zip seqs).map Prod.snd = seqs := List.map_snd_zip hlen.ge
  have hnodup : ((distances.zip seqs).map Prod.snd).Nodup := by rwa [hstamps]
  have hcut : chosen = (sortedPositions distances seqs).take k := by
    have hsorted : (sortedPositions distances seqs).length = distances.length := by
      unfold sortedPositions
      rw [List.length_map, length_rank, List.length_zipIdx, List.length_zip, ← hlen, min_self]
    show (sortedPositions distances seqs).take (min k distances.length) = _
    rw [← hsorted, ← List.take_eq_take_min]
  have hselect : selectTopkIndices distances seqs k = .ok chosen := by
    have h := selectTopkIndices_eq Prod.fst Prod.snd k hnodup
    rw [hdistances, hstamps] at h
    rw [h, hcut, sortedPositions, List.map_take]
  refine ⟨hselect, ?_⟩
  obtain ⟨T, hT, hrank, hget⟩ := selectTopkIndices_spec Prod.fst Prod.snd k hnodup
  rw [hdistances, hstamps, hselect] at hT
  unfold PairsAt
  rw [Except.ok.inj hT, ← hrank, List.forall₂_map_left_iff, List.forall₂_map_right_iff,
    List.forall₂_same]
  exact hget

end Selection

/-- For any bit patterns and distinct sequence numbers `select_topk_indices` returns the first
`min k n` positions of the full sort by distance and sequence number. The same pairs in another
order give the same selection, in the same order. -/
theorem selectTopkIndices_eq_sort [Operations] {distances : List Binary32} {seqs : List ℕ}
    (hlen : distances.length = seqs.length) (hseqs : seqs.Nodup) (k : ℕ) :
    selectTopkIndices distances seqs k =
      .ok ((sortedPositions distances seqs).take (min k distances.length)) ∧
    ∀ (distances' : List Binary32) (seqs' : List ℕ), distances'.length = seqs'.length →
      (distances'.zip seqs').Perm (distances.zip seqs) →
      ∃ chosen chosen' pairs, selectTopkIndices distances seqs k = .ok chosen ∧
        selectTopkIndices distances' seqs' k = .ok chosen' ∧
        PairsAt distances seqs chosen pairs ∧ PairsAt distances' seqs' chosen' pairs := by
  obtain ⟨hselect, hpairs⟩ := selectTopkIndices_sorted hlen hseqs k
  refine ⟨hselect, fun distances' seqs' hlen' hperm => ?_⟩
  have hstamps : (distances.zip seqs).map Prod.snd = seqs := List.map_snd_zip hlen.ge
  have hstamps' : (distances'.zip seqs').map Prod.snd = seqs' := List.map_snd_zip hlen'.ge
  have hseqs' : seqs'.Nodup := by
    rw [← hstamps', (hperm.map Prod.snd).nodup_iff, hstamps]
    exact hseqs
  obtain ⟨hselect', hpairs'⟩ := selectTopkIndices_sorted hlen' hseqs' k
  -- The ranking of the pairs does not depend on their order.
  have hrank : rank Arith.totalCmp Prod.fst Prod.snd (distances'.zip seqs') =
      rank Arith.totalCmp Prod.fst Prod.snd (distances.zip seqs) :=
    rank_eq_of_perm (by rwa [hstamps']) hperm
  rw [hrank] at hpairs'
  exact ⟨_, _, _, hselect, hselect', hpairs, hpairs'⟩

/-- A NaN, one, negative zero, a NaN with a sign, zero, and one again. -/
def mixedDistances : List Binary32 :=
  [⟨0x7FC00000⟩, ⟨0x3F800000⟩, ⟨0x80000000⟩, ⟨0xFFC00000⟩, ⟨0⟩, ⟨0x3F800000⟩]

/-- The stamps of these distances. -/
def mixedSeqs : List ℕ := [5, 4, 3, 9, 8, 0]

/-- Four of them are selected, the earlier of the two ones last, and the same four from the lists
backwards. -/
theorem mixedDistances_selected :
    selectTopkIndices mixedDistances mixedSeqs 4 = .ok [3, 2, 4, 5] ∧
    ∃ chosen' pairs, selectTopkIndices mixedDistances.reverse mixedSeqs.reverse 4 = .ok chosen' ∧
      PairsAt mixedDistances mixedSeqs [3, 2, 4, 5] pairs ∧
      PairsAt mixedDistances.reverse mixedSeqs.reverse chosen' pairs := by
  have hlen : mixedDistances.length = mixedSeqs.length := by decide
  obtain ⟨hselect, hperm⟩ := selectTopkIndices_eq_sort hlen (by decide) 4
  have hsorted : (sortedPositions mixedDistances mixedSeqs).take (min 4 mixedDistances.length) =
      [3, 2, 4, 5] := by decide +kernel
  rw [hsorted] at hselect
  obtain ⟨chosen, chosen', pairs, hchosen, hchosen', hpairs, hpairs'⟩ :=
    hperm mixedDistances.reverse mixedSeqs.reverse (by decide) (by decide)
  obtain rfl := Except.ok.inj (hselect.symm.trans hchosen)
  exact ⟨hselect, chosen', pairs, hchosen', hpairs, hpairs'⟩

end IqdbIvf
