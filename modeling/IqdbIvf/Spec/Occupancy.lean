import IqdbIvf.Spec.Exact
import IqdbIvf.Spec.Representation

/-!
# What the cluster statistics say

`cluster_stats` reports the sizes of the lists, their mean and their variance. Over exact arithmetic
the mean is the number of live vectors over the number of clusters, and the variance is the excess
of what a search for a stored vector has to scan: added up over the live vectors, the sizes of the
lists that hold them are `n_clusters * (variance + mean²)`.
-/

set_option linter.unusedSectionVars false

namespace IqdbIvf

open Buckets KMeans Rational

section Lists

variable {F32 : Type} [Arith F32] {X : Crates F32} {s : IvfIndex X}

/-- The size of the list that the id map names for an id. -/
def IvfIndex.listSize (s : IvfIndex X) (id : X.VectorId) : ℕ :=
  match s.id_to_cluster.lookup id with
  | some c => (s.inverted_lists.getD c []).length
  | none => 0

/-- The size that the id map leads to is that of the list that holds the entry. -/
theorem Inv.listSize_eq (h : Inv s) {list : List (InvertedListEntry X)}
    (hlist : list ∈ s.inverted_lists) {e : InvertedListEntry X} (he : e ∈ list) :
    s.listSize e.id = list.length := by
  obtain ⟨c, hc⟩ := List.mem_iff_getElem?.1 hlist
  unfold IvfIndex.listSize
  rw [(h.lookup_iff e.id c).2 ⟨e, ⟨list, hc, he⟩, rfl⟩]
  dsimp only
  rw [List.getD_eq_getElem?_getD, hc, Option.getD_some]

/-- Over the live vectors, the sizes of their lists add up to the squares of the sizes. -/
theorem Inv.sum_listSize (h : Inv s) :
    (s.entries.map fun e => s.listSize e.id).sum =
      (s.inverted_lists.map fun list => list.length * list.length).sum :=
  sum_map_length fun _ hlist _ he => h.listSize_eq hlist he

end Lists

section Exact

variable {K : Type} [Field K] [LinearOrder K] [IsStrictOrderedRing K] [SquareRoot K]
  {X : Crates K} {s : IvfIndex X} {sizes : List ℕ}

/-- The number of clusters is echoed. -/
theorem fromSizes_n_clusters (n : ℕ) (sizes : List ℕ) :
    (IvfClusterStats.fromSizes n sizes : IvfClusterStats K).n_clusters = n := by
  unfold IvfClusterStats.fromSizes
  by_cases hlen : sizes.length = 0
  · rw [if_pos hlen]
  · rw [if_neg hlen]

/-- The mean times the number of sizes is their sum, and the variance times the number of sizes is
the sum of the squared deviations from the mean. -/
theorem fromSizes_spec {n : ℕ} (hne : sizes ≠ []) {stats : IvfClusterStats K}
    (hstats : stats = .fromSizes n sizes) :
    stats.avg_size = (sizes.map (Nat.cast (R := K))).sum / sizes.length ∧
    stats.size_variance = ((sizes.map (Nat.cast (R := K))).map fun y =>
      (y - stats.avg_size) * (y - stats.avg_size)).sum / sizes.length := by
  have hlen : sizes.length ≠ 0 := fun h => hne (List.length_eq_zero_iff.1 h)
  -- The two loops as sums.
  have htotal : (sizes.map (Nat.cast (R := K))).sum =
      sizes.foldl (fun (sum : K) (size : ℕ) => sum + size) 0 := by
    rw [List.sum_eq_foldl, List.foldl_map]
  have hdeviations : ∀ m : K, ((sizes.map (Nat.cast (R := K))).map fun y => (y - m) * (y - m)).sum =
      sizes.foldl (fun (sum : K) (size : ℕ) => sum + (size - m) * (size - m)) 0 := by
    intro m
    rw [List.map_map, List.sum_eq_foldl, List.foldl_map]
    rfl
  have havg : stats.avg_size = (sizes.map (Nat.cast (R := K))).sum / sizes.length := by
    rw [hstats, htotal]
    unfold IvfClusterStats.fromSizes
    rw [if_neg hlen]
    rfl
  refine ⟨havg, ?_⟩
  rw [hdeviations, havg, hstats, htotal]
  unfold IvfClusterStats.fromSizes
  rw [if_neg hlen]
  rfl

/-- In every reachable state the statistics echo the number of clusters. They are empty before a
training. After it they list the sizes of the lists, whose mean times the number of clusters is the
number of live vectors. The variance is zero exactly when all lists are of one size, it bounds how
far any size is from the mean, and with the mean it says what the lists of the live vectors add up
to, each counted by its size. -/
theorem clusterStats_of_reachable (hs : Reachable s) :
    s.clusterStats.n_clusters = s.cfg.n_clusters ∧
    (s.trained = false → s.clusterStats = ⟨s.cfg.n_clusters, [], 0, 0⟩) ∧
    (s.trained = true →
      s.clusterStats.cluster_sizes = s.inverted_lists.map List.length ∧
      s.clusterStats.cluster_sizes.length = s.cfg.n_clusters ∧
      (s.cfg.n_clusters : K) * s.clusterStats.avg_size = s.live_count ∧
      0 ≤ s.clusterStats.size_variance ∧
      (s.clusterStats.size_variance = 0 ↔
        ∀ size ∈ s.clusterStats.cluster_sizes, (size : K) = s.clusterStats.avg_size) ∧
      (∀ size ∈ s.clusterStats.cluster_sizes,
        ((size : K) - s.clusterStats.avg_size) * (size - s.clusterStats.avg_size) ≤
          s.cfg.n_clusters * s.clusterStats.size_variance) ∧
      (s.cfg.n_clusters : K) * (s.clusterStats.size_variance +
        s.clusterStats.avg_size * s.clusterStats.avg_size) =
          (s.entries.map fun e => s.listSize e.id).sum) := by
  have h := hs.inv
  have hecho : s.clusterStats.n_clusters = s.cfg.n_clusters := fromSizes_n_clusters _ _
  refine ⟨hecho, fun huntrained => ?_, fun htrained => ?_⟩
  · unfold IvfIndex.clusterStats
    rw [if_neg (Bool.eq_false_iff.1 huntrained)]
    rfl
  have hsizes := clusterStats_sizes (s := s) htrained
  have hlength : (s.inverted_lists.map List.length).length = s.cfg.n_clusters := by
    rw [List.length_map, h.lists_length]
  have hne : s.inverted_lists.map List.length ≠ [] := by
    rw [← List.length_pos_iff, hlength]
    exact h.valid.one_le_n_clusters
  have hpos : (0 : K) < s.cfg.n_clusters := Nat.cast_pos.2 h.valid.one_le_n_clusters
  have hstats : s.clusterStats =
      .fromSizes s.cfg.n_clusters (s.inverted_lists.map List.length) := by
    unfold IvfIndex.clusterStats
    rw [if_pos htrained]
  obtain ⟨havg, hvariance⟩ := fromSizes_spec hne hstats
  rw [hlength] at havg hvariance
  rw [hsizes]
  generalize s.clusterStats.avg_size = m at havg hvariance ⊢
  generalize s.clusterStats.size_variance = var at hvariance ⊢
  -- The deviations and their sum.
  have hdeviations : (s.cfg.n_clusters : K) * var =
      (((s.inverted_lists.map List.length).map Nat.cast).map fun y => (y - m) * (y - m)).sum := by
    rw [hvariance, mul_div_cancel₀ _ hpos.ne']
  have hmem : ∀ size ∈ s.inverted_lists.map List.length,
      (size : K) ∈ (s.inverted_lists.map List.length).map Nat.cast :=
    fun size hsize => List.mem_map_of_mem hsize
  refine ⟨rfl, hlength, ?_, ?_, ?_, ?_, ?_⟩
  · rw [havg, mul_div_cancel₀ _ hpos.ne', ← Nat.cast_list_sum, h.sum_sizes]
  · rw [hvariance]
    apply div_nonneg _ hpos.le
    apply List.sum_nonneg
    intro d hd
    obtain ⟨y, -, rfl⟩ := List.mem_map.1 hd
    exact mul_self_nonneg _
  · rw [hvariance, div_eq_zero_iff, or_iff_left hpos.ne', sum_sq_dev_eq_zero_iff,
      List.forall_mem_map]
  · intro size hsize
    rw [hdeviations]
    exact sq_dev_le_sum m (hmem size hsize)
  · -- The squares of the sizes are counted once for each live vector.
    have hmean : m = ((s.inverted_lists.map List.length).map (Nat.cast (R := K))).sum /
        ((s.inverted_lists.map List.length).map (Nat.cast (R := K))).length := by
      rw [havg, List.length_map, hlength]
    have hsquares : (((s.inverted_lists.map List.length).map (Nat.cast (R := K))).map
        fun y => y * y).sum = ((s.entries.map fun e => s.listSize e.id).sum : ℕ) := by
      rw [h.sum_listSize, Nat.cast_list_sum, List.map_map, List.map_map, List.map_map]
      congr 1
      apply List.map_congr_left
      intro list _
      exact (Nat.cast_mul _ _).symm
    rw [mul_add, hdeviations, sum_sq_dev (mt List.map_eq_nil_iff.1 hne) hmean, List.length_map,
      hlength, sub_add_cancel, hsquares]

end Exact

namespace Rational

/-- Three items, two of them in one list. -/
def skewedState : IvfIndex crates := flatIndex.after [.train twoVectors, .insert 3 [1] none,
  .insert 4 [9] none, .insert 5 [8] none]

/-- The skewed state is reachable. -/
theorem skewedState_reachable : Reachable skewedState := (Reachable.new flatIndex_new).after _

/-- The mean size is three halves. The three items have lists of five together, which is more than
three times the mean by twice the variance. -/
theorem skewedState_clusterStats :
    skewedState.clusterStats.n_clusters = 2 ∧ skewedState.clusterStats.cluster_sizes = [2, 1] ∧
    (2 : ℚ) * skewedState.clusterStats.avg_size = 3 ∧
    skewedState.clusterStats.size_variance ≠ (0 : ℚ) ∧
    (2 : ℚ) * (skewedState.clusterStats.size_variance +
      skewedState.clusterStats.avg_size * skewedState.clusterStats.avg_size) = 5 := by
  obtain ⟨hecho, -, hstats⟩ := clusterStats_of_reachable skewedState_reachable
  obtain ⟨hsizes, -, havg, -, hzero, -, hsum⟩ := hstats (by decide +kernel)
  have hn : skewedState.cfg.n_clusters = 2 := by decide +kernel
  have hlive : skewedState.live_count = 3 := by decide +kernel
  have hlists : skewedState.inverted_lists.map List.length = [2, 1] := by decide +kernel
  have hfive : (skewedState.entries.map fun e => skewedState.listSize e.id).sum = 5 := by
    decide +kernel
  rw [hn] at hecho havg hsum
  rw [hsizes, hlists] at hzero ⊢
  rw [hlive] at havg
  rw [hfive] at hsum
  refine ⟨hecho, rfl, havg, fun h => ?_, hsum⟩
  -- The two sizes are not both the mean.
  have htwo := hzero.1 h 2 (by decide)
  have hone := hzero.1 h 1 (by decide)
  rw [← hone] at htwo
  exact absurd htwo (by norm_num)

end Rational

end IqdbIvf
