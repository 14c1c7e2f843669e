import Mathlib.Order.Monotone.Defs
import IqdbIvf.Spec.Exact
import IqdbIvf.Spec.Probing

/-!
# A stored vector is found by itself

The index looks for the nearest centroid in two places: `assign_to_cluster` scans the squared
distances and keeps the first of the least, and a search keeps the clusters with the least distances
in a heap, ties to the lower id. When the distance of a search is a strictly increasing function of
the squared one, both find the same cluster. A stored vector lies in that cluster, so a search for
it probes the cluster even with one probe, and the first hit is the first item with this vector.
-/

set_option linter.unusedSectionVars false

namespace IqdbIvf

open Outcome Ranking Selection KMeans IvfIndex Rational

section Retrieval

variable {K : Type} [Field K] [LinearOrder K] [IsStrictOrderedRing K] [SquareRoot K]
  {X : Crates K} {s : IvfIndex X} {φ : K → K} {query : List K}

/-- A lower score ranks below, and so does an equal one with a lower stamp. -/
theorem rankCmp_eq_lt {α : Type} {score : α → K} {stamp : α → ℕ} {a b : α}
    (h : score a < score b ∨ score a = score b ∧ stamp a < stamp b) :
    rankCmp Arith.totalCmp score stamp a b = .lt := by
  show (compare (score a) (score b)).then (compare (stamp a) (stamp b)) = .lt
  rcases h with hlt | ⟨heq, hlt⟩
  · rw [compare_lt_iff_lt.2 hlt]
    rfl
  · rw [compare_eq_iff_eq.2 heq, Nat.compare_eq_lt.2 hlt]
    rfl

/-- The nearest centroid of the query is the first one that a search probes. -/
theorem Inv.probes_eq_cons (h : Inv s) (htrained : s.trained = true)
    (hφ : StrictMonoOn φ (Set.Ici 0)) (hq : query.length = s.dim) :
    ∃ rest, (s.probes fun v => φ (sqDist query v)) = nearest s.centroids query :: rest := by
  have hnearest := (h.centroids htrained).firstNearest h.valid.one_le_n_clusters hq
  obtain ⟨c, hc, hd⟩ := hnearest.at_index
  have hmem : (c, nearest s.centroids query) ∈ s.centroids.zipIdx :=
    List.mem_zipIdx_iff_getElem?.2 hc
  -- Any other centroid is farther, or as far and behind it.
  have hlt : ∀ p ∈ s.centroids.zipIdx, p ≠ (c, nearest s.centroids query) →
      rankCmp Arith.totalCmp (fun c : List K × ℕ => φ (sqDist query c.1)) Prod.snd
        (c, nearest s.centroids query) p = .lt := by
    intro ⟨c', j⟩ hp hne
    have hc' : s.centroids[j]? = some c' := List.mem_zipIdx_iff_getElem?.1 hp
    apply rankCmp_eq_lt
    dsimp only
    rw [sqDist_comm query c, sqDist_comm query c', hd]
    rcases (hnearest.le c' (List.mem_of_getElem? hc')).lt_or_eq with hlt | heq
    · left
      exact hφ (nearestSq_nonneg (List.ne_nil_of_mem (List.mem_of_getElem? hc)) query)
        (sqDist_nonneg c' query) hlt
    · refine .inr ⟨by rw [heq], ?_⟩
      rcases Nat.lt_trichotomy (nearest s.centroids query) j with hij | hij | hij
      · exact hij
      · rw [hij, hc'] at hc
        exact absurd (by rw [Option.some_inj.1 hc, hij]) hne
      · exact absurd heq (hnearest.lt_of_lt j c' hij hc').ne
  obtain ⟨rest, hrank⟩ := rank_eq_cons hmem hlt
  obtain ⟨n, hn⟩ : ∃ n, s.cfg.n_probes = n + 1 :=
    ⟨s.cfg.n_probes - 1, (Nat.sub_add_cancel h.valid.one_le_n_probes).symm⟩
  refine ⟨(rest.take n).map Prod.snd, ?_⟩
  unfold probes
  rw [hrank, hn, List.take_succ_cons, List.map_cons]

/-- Among candidates of one dimension, the one with the query's vector and the lowest stamp comes
first. -/
theorem ranked_eq_cons {cands : List (InvertedListEntry X)} {e : InvertedListEntry X}
    (hφ : StrictMonoOn φ (Set.Ici 0)) (he : e ∈ cands)
    (hdims : ∀ x ∈ cands, e.vector.length = x.vector.length)
    (hfirst : ∀ x ∈ cands, x.vector = e.vector → x ≠ e → e.seq < x.seq) :
    ∃ rest, ranked (fun v => φ (sqDist e.vector v)) cands = e :: rest := by
  apply rank_eq_cons he
  intro x hx hne
  apply rankCmp_eq_lt
  by_cases heq : x.vector = e.vector
  · exact .inr ⟨by rw [heq], hfirst x hx heq hne⟩
  · left
    have hpos : 0 < sqDist e.vector x.vector := by
      apply lt_of_le_of_ne (sqDist_nonneg _ _)
      exact fun hzero => heq ((sqDist_eq_zero_iff (hdims x hx)).1 hzero.symm).symm
    dsimp only
    rw [sqDist_self]
    exact hφ (Set.mem_Ici.2 (le_refl 0)) hpos.le hpos

/-- The first item with a vector belongs to an entry that no entry with this vector precedes. -/
theorem Inv.exists_first_entry (h : Inv s) {item : Item X} (hitem : item ∈ s.items) :
    ∃ e ∈ s.live, e.vector = item.vector ∧
      s.items.find? (fun x => x.vector = item.vector) = some e.item ∧
      ∀ x ∈ s.live, x.vector = e.vector → x ≠ e → e.seq < x.seq := by
  obtain ⟨e₀, he₀, rfl⟩ := List.mem_map.1 hitem
  have hsome : (s.live.find? fun x => x.vector = e₀.vector).isSome :=
    List.find?_isSome.2 ⟨e₀, he₀, decide_eq_true rfl⟩
  obtain ⟨e, hfind⟩ := Option.isSome_iff_exists.1 hsome
  obtain ⟨hvector, before, after, hlive, hbefore⟩ := List.find?_eq_some_iff_append.1 hfind
  have hsorted := h.live_sorted
  refine ⟨e, List.mem_of_find?_eq_some hfind, of_decide_eq_true hvector, ?_, ?_⟩
  · show (s.live.map (·.item)).find? _ = _
    rw [List.find?_map]
    exact congrArg (Option.map (·.item)) hfind
  · intro x hx heq hne
    rw [hlive] at hx hsorted
    rcases List.mem_append.1 hx with hx | hx
    · have hnot := hbefore x hx
      rw [heq, hvector] at hnot
      cases hnot
    · have hmem := (List.mem_cons.1 hx).resolve_left hne
      exact (List.pairwise_cons.1 (List.pairwise_append.1 hsorted).2.1).1 x hmem

/-- A trained IVF-Flat index with the Euclidean metric probes the cluster first that the query would
be assigned to, and a search for the vector of an item returns the first item with this vector as
its first hit, at distance zero. -/
theorem self_retrieval (hs : Reachable s) (htrained : s.trained = true)
    (hflat : s.cfg.use_pq = false) (hmetric : s.metric = .euclidean)
    (hφ : StrictMonoOn φ (Set.Ici 0)) (hzero : φ 0 = 0)
    (hscore : ScoresEach X .euclidean s.dim fun query v => some (φ (sqDist query v))) :
    (∀ query : List K, query.length = s.dim → ∃ c rest,
      assignToCluster s.centroids query = .ok c ∧ rankCentroids s query = .ok (c :: rest)) ∧
    ∀ item ∈ s.items, ∀ params : SearchParams X, params.metric = .euclidean →
      params.filter = none → 1 ≤ params.k → ∃ first rest,
        s.items.find? (fun x => x.vector = item.vector) = some first ∧
        s.search item.vector params = .ok (⟨first.id, 0, first.metadata⟩ :: rest) := by
  have h := hs.inv
  have hscore' : ScoresEach X s.metric s.dim fun query v => some (φ (sqDist query v)) := by
    rw [hmetric]
    exact hscore
  have horient : ∀ query, (fun v => orient s.metric (φ (sqDist query v))) =
      fun v => φ (sqDist query v) := by
    intro query
    rw [hmetric]
    rfl
  constructor
  · intro query hq
    obtain ⟨rest, hprobes⟩ := h.probes_eq_cons htrained hφ hq
    have hrank := h.rankCentroids_eq htrained hscore' hq
    rw [horient, hprobes] at hrank
    exact ⟨_, rest, ((h.centroids htrained).nearest_spec h.valid.one_le_n_clusters hq).1, hrank⟩
  · intro item hitem params hpmetric hfilter hk
    obtain ⟨e, he, hvector, hfind, hfirst⟩ := h.exists_first_entry hitem
    have hq : e.vector.length = s.dim := h.live_dim he
    have hevaluator : evaluatorOf X params.filter = .ok none := by
      rw [hfilter]
      rfl
    have hsearch := h.search_flat htrained hflat hscore' hq (hpmetric.trans hmetric.symm) hevaluator
    obtain ⟨rest, hprobes⟩ := h.probes_eq_cons htrained hφ hq
    rw [horient, hprobes] at hsearch
    -- The entry lies in the first probed cluster.
    obtain ⟨c, hce⟩ := Buckets.mem_flatten_iff.1 (s.live_perm.mem_iff.1 he)
    have hcand : e ∈ s.candidates none (nearest s.centroids e.vector :: rest) := by
      rw [mem_candidates, h.nearest_of_holds hce]
      exact ⟨⟨c, List.mem_cons_self, hce⟩, rfl⟩
    have hlive : ∀ x ∈ s.candidates none (nearest s.centroids e.vector :: rest), x ∈ s.live :=
      fun x hx => s.live_perm.mem_iff.2 (mem_entries_of_candidates hx)
    obtain ⟨rest', hranked⟩ := ranked_eq_cons hφ hcand
      (fun x hx => hq.trans (h.live_dim (hlive x hx)).symm) fun x hx => hfirst x (hlive x hx)
    have hpos : 1 ≤ params.k.toNat := UInt64.le_iff_toNat_le.1 hk
    obtain ⟨n, hn⟩ : ∃ n, params.k.toNat = n + 1 :=
      ⟨params.k.toNat - 1, (Nat.sub_add_cancel hpos).symm⟩
    have hhit : exactHit (fun v => φ (sqDist e.vector v)) e = ⟨e.id, 0, e.metadata⟩ := by
      unfold exactHit hitOf
      dsimp only
      rw [sqDist_self, hzero]
    rw [hranked, hn, List.take_succ_cons, List.map_cons, hhit, hvector] at hsearch
    exact ⟨e.item, _, hfind, hsearch⟩

end Retrieval

namespace Rational

/-- The distances of the rational model, with the squared distance for the Euclidean metric. It is
the distance where this is zero or one. -/
def squaredDistance (metric : DistanceMetric) (a b : List ℚ) : Option ℚ :=
  match metric with
  | .euclidean => some (sqDist a b)
  | _ => distance metric a b

/-- The other crates, with these distances. -/
abbrev squaredCrates : Crates ℚ :=
  { crates with
    computeBatch := fun metric query refs out =>
      match refs.mapM (squaredDistance metric query) with
      | some dists =>
        if h : dists.length = out.length then .ok ⟨dists, h⟩
        else .error (.dimensionMismatch out.length dists.length)
      | none => .error .invalidMetric }

/-- Each vector of a batch is scored on its own, by the squared distance. -/
theorem squared_scoresEach (dim : ℕ) :
    ScoresEach squaredCrates .euclidean dim fun query v => some (id (sqDist query v)) :=
  scoresEach_of_batch dim fun _ _ _ => rfl

/-- Two clusters, one of them probed, in IVF-Flat mode. -/
def oneProbeConfig : IvfConfig := { flatConfig with n_probes := 1 }

/-- An empty index of dimension `1` with this configuration and the Euclidean metric. -/
def squaredIndex : IvfIndex squaredCrates := .fresh squaredCrates 1 .euclidean oneProbeConfig

/-- The index is what construction returns. -/
theorem squaredIndex_new :
    IvfIndex.new squaredCrates 1 .euclidean oneProbeConfig = .ok squaredIndex := by
  have hvalid : oneProbeConfig.Valid := (IvfConfig.validate_eq_ok _).1 rfl
  exact IvfIndex.new_eq_ok.2 ⟨Nat.one_pos, hvalid, rfl, rfl⟩

/-- A training sample of two vectors at distance one. -/
def unitVectors : Slice (List ℚ) := ⟨[[0], [1]], by decide⟩

/-- The index, trained and with three items, two of them with one vector. -/
def squaredState : IvfIndex squaredCrates := squaredIndex.after [.train unitVectors,
  .insert 3 [0] none, .insert 4 [1] none, .insert 5 [0] (some 5), .retrain]

/-- The query of the index for a stored vector. -/
theorem squaredState_self_retrieval :
    squaredState.items.length = 3 ∧
    (∃ c rest, assignToCluster squaredState.centroids [1] = .ok c ∧
      rankCentroids squaredState [1] = .ok (c :: rest)) ∧
    ∃ first rest, squaredState.items.find? (fun x => x.vector = [0]) = some first ∧
      squaredState.search [0] ⟨1, .euclidean, none⟩ =
        .ok (⟨first.id, 0, first.metadata⟩ :: rest) := by
  have hreachable : Reachable squaredState := (Reachable.new squaredIndex_new).after _
  have hdim : squaredState.dim = 1 := by decide +kernel
  have hscore : ScoresEach squaredCrates .euclidean squaredState.dim
      fun query v => some (id (sqDist query v)) := squared_scoresEach _
  obtain ⟨hprobe, hfound⟩ := self_retrieval hreachable (by decide +kernel) (by decide +kernel)
    (by decide +kernel) (strictMono_id.strictMonoOn _) rfl hscore
  obtain ⟨item, hitem, hvector⟩ := List.any_eq_true.1
    (show squaredState.items.any (fun x => x.vector = [0]) = true by decide +kernel)
  have hfirst := hfound item hitem ⟨1, .euclidean, none⟩ rfl rfl (by decide)
  rw [of_decide_eq_true hvector] at hfirst
  exact ⟨by decide +kernel, hprobe [1] hdim.symm, hfirst⟩

end Rational

end IqdbIvf
