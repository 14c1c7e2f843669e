import IqdbIvf.Lib.Greedy
import IqdbIvf.Spec.Probing
import IqdbIvf.Spec.Safety

/-!
# The recommended number of probes

`suggest_n_probes` walks over the sizes of the clusters in descending order until their sum reaches
the wanted share of the live vectors. The sum of the first sizes is what the largest clusters hold,
and no other clusters of that number hold more; so the recommendation is the least number of
clusters that can hold the share (`Fewest`). With it the recommendation is monotone in the share,
whichever of the early returns are taken.
-/

set_option linter.unusedSectionVars false

namespace IqdbIvf

open Outcome Greedy Rational

variable {F32 : Type} [Arith F32] {X : Crates F32} {s : IvfIndex X}

namespace IvfIndex

/-- The number of live vectors in cluster `c`. -/
def clusterSize (s : IvfIndex X) (c : ℕ) : ℕ := (s.inverted_lists.getD c []).length

/-- The number of live vectors in a set of clusters. -/
def held (s : IvfIndex X) (S : Finset ℕ) : ℕ := ∑ c ∈ S, s.clusterSize c

/-- The clusters. -/
def clusters (s : IvfIndex X) : Finset ℕ := Finset.range s.cfg.n_clusters

end IvfIndex

/-- The `n` largest clusters hold `target` vectors, and fewer clusters do not, whichever they
are. -/
structure Fewest (s : IvfIndex X) (target : ℤ) (n : ℕ) : Prop where
  /-- There are `n` largest clusters. -/
  exists_largest : ∃ L, Largest s.clusterSize s.clusters L ∧ L.card = n
  /-- Together they hold the target. -/
  reached : ∀ L, Largest s.clusterSize s.clusters L → L.card = n → target ≤ s.held L
  /-- Fewer clusters hold less. -/
  missed : ∀ S ⊆ s.clusters, S.card < n → (s.held S : ℤ) < target

/-- A larger target takes at least as many clusters. -/
theorem Fewest.mono {target target' : ℤ} {n n' : ℕ} (h : Fewest s target n)
    (h' : Fewest s target' n') (hle : target ≤ target') : n ≤ n' := by
  by_contra hlt
  obtain ⟨L, hL, hcard⟩ := h'.exists_largest
  have hmissed := h.missed L hL.subset (by omega)
  have hreached := h'.reached L hL hcard
  omega

/-! ## The sorted sizes -/

/-- The sizes of the clusters are the lengths of the lists. -/
theorem Inv.map_clusterSize (h : Inv s) :
    (List.range s.cfg.n_clusters).map s.clusterSize = s.inverted_lists.map List.length := by
  rw [← h.lists_length]
  apply List.ext_getElem
  · simp
  · intro c hc hc'
    rw [List.length_map] at hc'
    unfold IvfIndex.clusterSize
    simp [hc']

/-- The sorted sizes are the sizes of the clusters in descending order. -/
theorem Inv.map_descending (h : Inv s) :
    (descending s.clusterSize s.clusters).map s.clusterSize = s.sortedSizes := by
  have hrange : (List.range s.cfg.n_clusters).Perm s.clusters.toList := by
    rw [List.perm_ext_iff_of_nodup List.nodup_range s.clusters.nodup_toList]
    intro c
    rw [Finset.mem_toList, List.mem_range, IvfIndex.clusters, Finset.mem_range]
  rw [Greedy.map_descending _ _ hrange, h.map_clusterSize]
  rfl

/-- The first `n` sorted sizes are what `n` of the largest clusters hold. -/
theorem Inv.exists_largest (h : Inv s) {n : ℕ} (hn : n ≤ s.cfg.n_clusters) :
    ∃ L, Largest s.clusterSize s.clusters L ∧ L.card = n ∧
      s.held L = (s.sortedSizes.take n).sum := by
  refine ⟨_, largest_take s.clusterSize s.clusters n, card_take _ _ ?_, ?_⟩
  · rw [IvfIndex.clusters, Finset.card_range]
    exact hn
  · rw [← h.map_descending]
    exact sum_take _ _ n

/-- A number of clusters is the fewest when the sorted sizes reach the target there and not
before. -/
theorem Inv.fewest (h : Inv s) {target : ℕ} {n : ℕ} (hn : n + 1 ≤ s.cfg.n_clusters)
    (hreached : target ≤ (s.sortedSizes.take (n + 1)).sum)
    (hmissed : (s.sortedSizes.take n).sum < target) : Fewest s target (n + 1) := by
  obtain ⟨L, hL, hcard, hheld⟩ := h.exists_largest hn
  obtain ⟨L', hL', hcard', hheld'⟩ := h.exists_largest (Nat.le_of_succ_le hn)
  refine ⟨⟨L, hL, hcard⟩, ?_, ?_⟩
  · intro K hK hKcard
    have hle : s.held L ≤ s.held K := hK.sum_le hL.subset (hcard.trans hKcard.symm).le
    omega
  · intro S hS hScard
    have hle : s.held S ≤ s.held L' := hL'.sum_le hS (by omega)
    omega

/-! ## The walk -/

/-- The walk stops at the first position where the sum reaches the target. -/
theorem coverageWalk_eq_some {target cumsum i n : ℕ} {sizes : List ℕ}
    (hmax : cumsum + sizes.sum ≤ usizeMax) (hcumsum : cumsum < target)
    (hwalk : IvfIndex.coverageWalk target cumsum (sizes.zipIdx i) = some n) :
    ∃ j, n = i + j + 1 ∧ j < sizes.length ∧ target ≤ cumsum + (sizes.take (j + 1)).sum ∧
      cumsum + (sizes.take j).sum < target := by
  induction sizes generalizing cumsum i with
  | nil => cases hwalk
  | cons size sizes ih =>
    rw [List.sum_cons] at hmax
    have hadd : saturatingAdd cumsum size = cumsum + size := saturatingAdd_of_le (by omega)
    rw [List.zipIdx_cons, IvfIndex.coverageWalk, hadd] at hwalk
    split_ifs at hwalk with hreached
    · obtain rfl := Option.some.inj hwalk
      exact ⟨0, rfl, Nat.succ_pos _, by simpa using hreached, by simpa using hcumsum⟩
    · obtain ⟨j, hn, hj, hle, hlt⟩ := ih (by omega) (by omega) hwalk
      refine ⟨j + 1, by omega, Nat.succ_lt_succ hj, ?_, ?_⟩
      · rw [List.take_succ_cons, List.sum_cons]
        omega
      · rw [List.take_succ_cons, List.sum_cons]
        omega

/-- What a recommendation is for a coverage in `[0, 1]`. -/
structure Suggestion (s : IvfIndex X) (c : ℚ) (n : ℕ) : Prop where
  /-- At least one cluster is probed. -/
  one_le : 1 ≤ n
  /-- There are as many clusters. -/
  le : n ≤ s.cfg.n_clusters
  /-- An index without vectors needs one probe. -/
  idle : ¬(s.trained = true ∧ s.len ≠ 0) → n = 1
  /-- So does the coverage `0`. -/
  zero : c = 0 → n = 1
  /-- The coverage `1` takes all clusters. -/
  full : s.trained = true → s.len ≠ 0 → c = 1 → n = s.cfg.n_clusters
  /-- Between them the clusters are the fewest that hold the share. -/
  fewest : s.trained = true → s.len ≠ 0 → 0 < c → c < 1 → Fewest s ⌈(s.len : ℚ) * c⌉ n

/-- The recommendation is monotone in the coverage. -/
theorem Suggestion.mono {c c' : ℚ} {n n' : ℕ} (h : Suggestion s c n) (h' : Suggestion s c' n')
    (h0 : 0 ≤ c) (hle : c ≤ c') (h1 : c' ≤ 1) : n ≤ n' := by
  by_cases hbusy : s.trained = true ∧ s.len ≠ 0
  swap
  · rw [h.idle hbusy]
    exact h'.one_le
  obtain ⟨htrained, hlen⟩ := hbusy
  rcases h0.eq_or_lt with hzero | hpos
  · rw [h.zero hzero.symm]
    exact h'.one_le
  rcases h1.eq_or_lt with hone | hlt
  · rw [h'.full htrained hlen hone]
    exact h.le
  -- Both coverages are walked for, and the larger one has the larger target.
  have hfewest := h.fewest htrained hlen hpos (hle.trans_lt hlt)
  have hfewest' := h'.fewest htrained hlen (hpos.trans_le hle) hlt
  apply hfewest.mono hfewest'
  exact Int.ceil_le_ceil (mul_le_mul_of_nonneg_left hle (Nat.cast_nonneg _))

/-- The target of the walk is positive, and it is not more than there is. -/
theorem target_spec {len : ℕ} {c : ℚ} (hlen : len ≠ 0) (hpos : 0 < c) (hle : c ≤ 1) :
    ((⌈(len : ℚ) * c⌉.toNat : ℕ) : ℤ) = ⌈(len : ℚ) * c⌉ ∧ 0 < ⌈(len : ℚ) * c⌉.toNat ∧
      ⌈(len : ℚ) * c⌉.toNat ≤ len := by
  have hlen' : (0 : ℚ) < len := Nat.cast_pos.2 (Nat.pos_of_ne_zero hlen)
  have hceil : 0 < ⌈(len : ℚ) * c⌉ := Int.ceil_pos.2 (mul_pos hlen' hpos)
  have hall := ceil_share_le len hle
  omega

/-- The walk over the clusters of an index returns the fewest clusters that hold the target. -/
theorem Inv.coverageWalk_spec (h : Inv s) {target : ℕ} (hpos : 0 < target)
    (hle : target ≤ s.live_count) :
    ∃ n, IvfIndex.coverageWalk target 0 s.sortedSizes.zipIdx = some n ∧ 1 ≤ n ∧
      n ≤ s.cfg.n_clusters ∧ Fewest s target n := by
  have hlen := h.length_sortedSizes
  obtain ⟨n, hn⟩ := Option.ne_none_iff_exists'.1 (h.coverageWalk_ne_none hle)
  obtain ⟨j, rfl, hj, hreached, hmissed⟩ := coverageWalk_eq_some h.sum_sortedSizes_le hpos hn
  rw [Nat.zero_add] at hn hreached hmissed
  refine ⟨0 + j + 1, ?_, by omega, by omega, ?_⟩
  · rw [hn, Nat.zero_add]
  · rw [Nat.zero_add]
    exact h.fewest (by omega) hreached hmissed

/-- One cluster holds all vectors, and no cluster holds none. -/
theorem Inv.fewest_one (h : Inv s) (hone : s.cfg.n_clusters = 1) {target : ℕ} (hpos : 0 < target)
    (hle : target ≤ s.live_count) : Fewest s target 1 := by
  have hlen : s.sortedSizes.length ≤ 1 := (h.length_sortedSizes.trans hone).le
  apply h.fewest (Nat.le_of_eq hone.symm)
  · rw [Nat.zero_add, List.take_of_length_le hlen, h.sum_sortedSizes]
    exact hle
  · exact hpos

/-- A recommendation is returned for every coverage in `[0, 1]`. -/
theorem Inv.suggestNProbes_spec (h : Inv s) {c : ℚ} (h0 : 0 ≤ c) (h1 : c ≤ 1) :
    ∃ n, s.suggestNProbes (some c) = .ok n ∧ Suggestion s c n := by
  have hclusters := h.valid.one_le_n_clusters
  unfold IvfIndex.suggestNProbes
  dsimp only
  rw [if_neg (not_not_intro ⟨h0, h1⟩)]
  split_ifs with hearly hzero hone
  · -- There are no vectors, or one cluster has them all.
    have hsingle : s.trained = true → s.len ≠ 0 → s.cfg.n_clusters = 1 := by
      intro htrained hlen
      simpa [htrained, show s.live_count ≠ 0 from hlen] using hearly
    refine ⟨1, rfl, Nat.le_refl 1, hclusters, fun _ => rfl, fun _ => rfl, ?_, ?_⟩
    · intro htrained hlen _
      exact (hsingle htrained hlen).symm
    · intro htrained hlen hpos _
      obtain ⟨htarget, hpos', hle⟩ := target_spec hlen hpos h1
      rw [← htarget]
      exact h.fewest_one (hsingle htrained hlen) hpos' hle
  · refine ⟨1, rfl, Nat.le_refl 1, hclusters, fun _ => rfl, fun _ => rfl, ?_, ?_⟩
    · intro _ _ hone
      exact absurd (hzero.symm.trans hone) zero_ne_one
    · intro _ _ hpos
      exact absurd hzero hpos.ne'
  all_goals
    obtain ⟨hbusy, -⟩ : (s.trained = true ∧ s.len ≠ 0) ∧ s.cfg.n_clusters ≠ 1 := by
      simpa [IvfIndex.len] using hearly
  · refine ⟨_, rfl, hclusters, Nat.le_refl _, fun hidle => absurd hbusy hidle, ?_,
      fun _ _ _ => rfl, ?_⟩
    · intro hzero'
      exact absurd hzero' hzero
    · intro _ _ _ hlt
      exact absurd hone hlt.ne
  · obtain ⟨htarget, hpos, hle⟩ := target_spec hbusy.2 (h0.lt_of_ne' hzero) h1
    obtain ⟨n, hwalk, hn, hn', hfewest⟩ := h.coverageWalk_spec hpos hle
    have hret : IvfIndex.coverageWalk ⌈(s.live_count : ℚ) * c⌉.toNat 0
        ((s.inverted_lists.map List.length).insertionSort fun a b => b ≤ a).zipIdx = some n := hwalk
    rw [hret]
    dsimp only
    rw [clamp_of_le n hclusters, max_eq_left hn, min_eq_left hn']
    refine ⟨n, rfl, hn, hn', fun hidle => absurd hbusy hidle, fun hzero' => absurd hzero' hzero,
      fun _ _ hone' => absurd hone' hone, fun _ _ _ _ => ?_⟩
    rw [← htarget]
    exact hfewest

/-- For every reachable index and every coverage in `[0, 1]` the recommendation can be set. On a
trained index with vectors and for a coverage between `0` and `1` the recommended number of largest
clusters holds the wanted share of the vectors, and no fewer clusters hold it. The recommendation
is monotone in the coverage. -/
theorem suggestNProbes_optimal (h : Reachable s) :
    (∀ c : ℚ, 0 ≤ c → c ≤ 1 → ∃ n, s.suggestNProbes (some c) = .ok n ∧
      1 ≤ n ∧ n ≤ s.cfg.n_clusters ∧ call (.setNProbes n) s = .ok (.ok (), s.withProbes n) ∧
      (s.trained = true → s.len ≠ 0 → 0 < c → c < 1 →
        (∃ L, Largest s.clusterSize s.clusters L ∧ L.card = n) ∧
        (∀ L, Largest s.clusterSize s.clusters L → L.card = n → ⌈(s.len : ℚ) * c⌉ ≤ s.held L) ∧
        ∀ S ⊆ s.clusters, S.card < n → s.held S < ⌈(s.len : ℚ) * c⌉)) ∧
    ∀ c c' : ℚ, 0 ≤ c → c ≤ c' → c' ≤ 1 → ∃ n n', s.suggestNProbes (some c) = .ok n ∧
      s.suggestNProbes (some c') = .ok n' ∧ n ≤ n' := by
  have hinv := h.inv
  constructor
  · intro c h0 h1
    obtain ⟨n, hn, hsuggestion⟩ := hinv.suggestNProbes_spec h0 h1
    refine ⟨n, hn, hsuggestion.one_le, hsuggestion.le,
      hinv.setNProbes_ok hsuggestion.one_le hsuggestion.le, ?_⟩
    intro htrained hlen hpos hlt
    have hfewest := hsuggestion.fewest htrained hlen hpos hlt
    exact ⟨hfewest.exists_largest, hfewest.reached, hfewest.missed⟩
  · intro c c' h0 hle h1
    obtain ⟨n, hn, hsuggestion⟩ := hinv.suggestNProbes_spec h0 (hle.trans h1)
    obtain ⟨n', hn', hsuggestion'⟩ := hinv.suggestNProbes_spec (h0.trans hle) h1
    exact ⟨n, n', hn, hn', hsuggestion.mono hsuggestion' h0 hle h1⟩

/-- The two-cluster index with one vector in each cluster: a fifth of them takes one probe, and
three fifths take both. -/
theorem flatState_suggestNProbes :
    flatState.suggestNProbes (some (1 / 5)) = .ok 1 ∧
    flatState.suggestNProbes (some (3 / 5)) = .ok 2 ∧ 1 ≤ 2 ∧
    call (.setNProbes 2) flatState = .ok (.ok (), flatState.withProbes 2) ∧
    (∃ L, Largest flatState.clusterSize flatState.clusters L ∧ L.card = 2) ∧
    (∀ L, Largest flatState.clusterSize flatState.clusters L → L.card = 2 →
      2 ≤ flatState.held L) ∧
    ∀ S ⊆ flatState.clusters, S.card < 2 → flatState.held S < 2 := by
  have htrained : flatState.trained = true := by decide +kernel
  have hlen : flatState.len = 2 := by decide +kernel
  have h1 : flatState.suggestNProbes (some (1 / 5)) = .ok 1 := by decide +kernel
  have h2 : flatState.suggestNProbes (some (3 / 5)) = .ok 2 := by decide +kernel
  have htarget : ⌈(flatState.len : ℚ) * (3 / 5)⌉ = 2 := by
    rw [hlen]
    norm_num
  obtain ⟨hcoverage, hmono⟩ := suggestNProbes_optimal flatState_reachable
  obtain ⟨n, hn, -, -, hset, hcovered⟩ := hcoverage (3 / 5) (by norm_num) (by norm_num)
  obtain ⟨m, m', hm, hm', hle⟩ := hmono (1 / 5) (3 / 5) (by norm_num) (by norm_num) (by norm_num)
  obtain rfl := Except.ok.inj (h2.symm.trans hn)
  obtain rfl := Except.ok.inj (h1.symm.trans hm)
  obtain rfl := Except.ok.inj (h2.symm.trans hm')
  obtain ⟨hlargest, hreached, hmissed⟩ :=
    hcovered htrained (by rw [hlen]; decide) (by norm_num) (by norm_num)
  rw [htarget] at hreached hmissed
  exact ⟨h1, h2, hle, hset, hlargest, fun L hL hcard => Nat.cast_le.1 (hreached L hL hcard),
    fun S hS hcard => Nat.cast_lt.1 (hmissed S hS hcard)⟩

end IqdbIvf
