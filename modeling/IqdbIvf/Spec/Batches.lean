import IqdbIvf.Lib.Outliers
import IqdbIvf.Spec.Search

/-!
# What a search makes of arbitrary scores

A search asks `compute_batch` for the scores of the centroids, and then for those of the surviving
entries of each probed cluster. Here nothing is assumed of the function, not even that it scores a
vector the same in two batches. The raw scores of the centroids decide which clusters are scanned
(`Scanned`), those of the entries of these clusters (`Scored`) decide the result, and both passes
rank what they get (`rankCentroids_of_rawScores`, `Inv.search_flat_of_rawScores`).
-/

set_option linter.unusedSectionVars false

namespace IqdbIvf

open Outcome Ranking Selection

variable {F32 : Type} [Arith F32] {X : Crates F32} {s : IvfIndex X} {query : List F32}
  {evaluator : Option X.FilterEvaluator} {scores : List F32}

namespace IvfIndex

/-- The scores that `compute_batch` returns for vectors, before the sign convention. -/
def rawScores (s : IvfIndex X) (query : List F32) (refs : List (List F32)) :
    Except IqdbError (List F32) := do
  let dists ← X.computeBatch s.metric query refs (List.replicate refs.length 0)
  return dists.1

/-- The raw score of a kept entry in the batch of its cluster. -/
def Scored (s : IvfIndex X) (query : List F32) (evaluator : Option X.FilterEvaluator) (c : ℕ)
    (e : InvertedListEntry X) (raw : F32) : Prop :=
  ∃ batch, s.rawScores query ((s.kept evaluator c).map (·.vector)) = .ok batch ∧
    (e, raw) ∈ (s.kept evaluator c).zip batch

/-- With raw scores of the centroids, a cluster is scanned: fewer than `n_probes` clusters come
before it by score under the sign convention, ties by number. -/
def Scanned (s : IvfIndex X) (scores : List F32) (c : ℕ) : Prop :=
  ∃ raw, scores[c]? = some raw ∧
    scores.zipIdx.countP (fun p => (Arith.totalCmp (orient s.metric p.1) (orient s.metric raw)).then
      (compare p.2 c) = .lt) < s.cfg.n_probes

/-- A candidate of the scanned clusters with its raw score. -/
def Competes (s : IvfIndex X) (query : List F32) (evaluator : Option X.FilterEvaluator)
    (scores : List F32) (e : InvertedListEntry X) (raw : F32) : Prop :=
  ∃ c, s.Scanned scores c ∧ s.Scored query evaluator c e raw

end IvfIndex

/-- The oriented batch is the raw one under the sign convention. -/
theorem orientedBatch_eq (refs : List (List F32)) :
    orientedBatch X s.metric query refs =
      (s.rawScores query refs).map (List.map (orient s.metric)) := by
  unfold orientedBatch IvfIndex.rawScores
  cases X.computeBatch s.metric query refs (List.replicate refs.length 0) with
  | error e => rfl
  | ok dists => rfl

/-- There is one raw score for each vector. -/
theorem length_rawScores {refs : List (List F32)} (h : s.rawScores query refs = .ok scores) :
    scores.length = refs.length := by
  unfold IvfIndex.rawScores at h
  cases hbatch : X.computeBatch s.metric query refs (List.replicate refs.length 0) with
  | error e =>
    rw [hbatch] at h
    cases h
  | ok dists =>
    rw [hbatch] at h
    obtain rfl := Except.ok.inj h
    rw [dists.2, List.length_replicate]

/-! ## Pass 1 -/

/-- The centroids with their raw scores, ranked. -/
def IvfIndex.rankedScores (s : IvfIndex X) (scores : List F32) : List (F32 × ℕ) :=
  rank Arith.totalCmp (fun p => orient s.metric p.1) Prod.snd scores.zipIdx

/-- The numbers of numbered scores are their positions. -/
theorem zipIdx_snd (scores : List F32) :
    scores.zipIdx.map Prod.snd = List.range scores.zipIdx.length := by
  rw [List.zipIdx_map_snd, ← List.range_eq_range', List.length_zipIdx]

/-- The numbered scores have distinct numbers. -/
theorem zipIdx_snd_nodup (scores : List F32) : (scores.zipIdx.map Prod.snd).Nodup := by
  rw [zipIdx_snd]
  exact List.nodup_range

/-- Pass 1 returns the clusters of the first `n_probes` centroids by raw score. -/
theorem rankCentroids_of_rawScores (h : s.rawScores query s.centroids = .ok scores) :
    rankCentroids s query = .ok (((s.rankedScores scores).take s.cfg.n_probes).map Prod.snd) := by
  have htake : (s.rankedScores scores).take (min s.cfg.n_probes scores.length) =
      (s.rankedScores scores).take s.cfg.n_probes := by
    have hlen : (s.rankedScores scores).length = scores.length := by
      unfold IvfIndex.rankedScores
      rw [length_rank, List.length_zipIdx]
    rw [← hlen, ← List.take_eq_take_min]
  have hscores : scores.zipIdx.map (fun p => orient s.metric p.1) =
      scores.map (orient s.metric) := by
    calc scores.zipIdx.map (fun p => orient s.metric p.1)
        = (scores.zipIdx.map Prod.fst).map (orient s.metric) := by
          rw [List.map_map]
          rfl
      _ = scores.map (orient s.metric) := by rw [List.zipIdx_map_fst]
  have hselect := selectTopkIndices_range (fun p : F32 × ℕ => orient s.metric p.1)
    (min s.cfg.n_probes scores.length) (zipIdx_snd scores)
  rw [hscores, List.length_zipIdx] at hselect
  unfold rankCentroids
  rw [orientedBatch_eq, h, ← length_rawScores h]
  simp only [liftM_result, liftM_checked]
  show (selectTopkIndices (scores.map (orient s.metric)) (List.range scores.length)
    (min s.cfg.n_probes scores.length)).mapError Fault.panic = _
  rw [hselect, mapError_ok]
  exact congrArg (fun ps => Except.ok (ps.map Prod.snd)) htake

/-- Pass 1 returns the clusters that are scanned. -/
theorem mem_rankedScores_iff {c : ℕ} :
    c ∈ ((s.rankedScores scores).take s.cfg.n_probes).map Prod.snd ↔ s.Scanned scores c := by
  have hcount : ∀ p ∈ scores.zipIdx, p ∈ (s.rankedScores scores).take s.cfg.n_probes ↔
      scores.zipIdx.countP (fun q => (Arith.totalCmp (orient s.metric q.1)
        (orient s.metric p.1)).then (compare q.2 p.2) = .lt) < s.cfg.n_probes :=
    fun p hp => mem_take_rank_iff (zipIdx_snd_nodup scores) hp _
  rw [List.mem_map]
  constructor
  · rintro ⟨p, hp, rfl⟩
    have hmem : p ∈ scores.zipIdx := mem_rank.1 (List.mem_of_mem_take hp)
    exact ⟨p.1, List.mem_zipIdx_iff_getElem?.1 hmem, (hcount p hmem).1 hp⟩
  · rintro ⟨raw, hraw, hlt⟩
    have hmem : (raw, c) ∈ scores.zipIdx := List.mem_zipIdx_iff_getElem?.2 hraw
    exact ⟨(raw, c), (hcount _ hmem).2 hlt, rfl⟩

/-! ## Pass 2 -/

/-- A scored entry is kept. -/
theorem IvfIndex.Scored.mem_kept {c : ℕ} {e : InvertedListEntry X} {raw : F32}
    (h : s.Scored query evaluator c e raw) : e ∈ s.kept evaluator c := by
  obtain ⟨batch, -, hzip⟩ := h
  exact (List.of_mem_zip hzip).1

/-- An entry has one raw score. -/
theorem Inv.scored_unique (h : Inv s) {c c' : ℕ} {e : InvertedListEntry X} {raw raw' : F32}
    (hraw : s.Scored query evaluator c e raw) (hraw' : s.Scored query evaluator c' e raw') :
    raw = raw' := by
  have hholds := (IqdbIvf.mem_kept.1 hraw.mem_kept).1
  obtain rfl : c = c' :=
    Buckets.Holds.unique h.seqs_nodup hholds (IqdbIvf.mem_kept.1 hraw'.mem_kept).1 rfl
  obtain ⟨list, hlist, -⟩ := hholds
  have hnodup : (s.kept evaluator c).Nodup := by
    rw [kept_eq hlist]
    exact (List.Nodup.of_map _ (h.list_ids_nodup hlist)).filter _
  obtain ⟨batch, hbatch, hzip⟩ := hraw
  obtain ⟨batch', hbatch', hzip'⟩ := hraw'
  obtain rfl : batch = batch' := Except.ok.inj (hbatch.symm.trans hbatch')
  -- The two scores stand at the position of the entry.
  obtain ⟨i, hi⟩ := List.mem_iff_getElem?.1 hzip
  obtain ⟨j, hj⟩ := List.mem_iff_getElem?.1 hzip'
  obtain ⟨hei, hri⟩ := List.getElem?_zip_eq_some.1 hi
  obtain ⟨hej, hrj⟩ := List.getElem?_zip_eq_some.1 hj
  have hij : i = j :=
    (List.getElem?_inj (List.getElem?_eq_some_iff.1 hei).1 hnodup).1 (hei.trans hej.symm)
  rw [hij, hrj] at hri
  exact (Option.some.inj hri).symm

/-- The batch of a probed cluster scores its kept entries. -/
theorem listMeets_of_scored {probed : List ℕ} {c : ℕ} (hc : c ∈ probed)
    {list : List (InvertedListEntry X)} (hlist : s.inverted_lists[c]? = some list) :
    ListMeets s query (fun e d => ∃ c ∈ probed, ∃ raw, s.Scored query evaluator c e raw ∧
      d = orient s.metric raw) (fun _ => True)
      (list.filter fun e => keeps X evaluator e.metadata) := by
  intro _
  rw [← kept_eq hlist, orientedBatch_eq]
  cases hbatch : s.rawScores query ((s.kept evaluator c).map (·.vector)) with
  | error e => exact trivial
  | ok batch =>
    have hlen := length_rawScores hbatch
    rw [List.length_map] at hlen
    show List.Forall₂ _ (s.kept evaluator c) (batch.map (orient s.metric))
    rw [List.forall₂_iff_zip, List.length_map, List.zip_map_right]
    refine ⟨hlen.symm, fun {e d} hzip => ?_⟩
    obtain ⟨⟨e', raw⟩, hmem, heq⟩ := List.mem_map.1 hzip
    obtain ⟨rfl, rfl⟩ := Prod.mk.inj heq
    exact ⟨c, hc, raw, ⟨batch, hbatch, hmem⟩, rfl⟩

/-- An IVF-Flat search that returns hits returns the first `k` candidates of the scanned clusters,
by their scores in the batches of their clusters. -/
theorem Inv.search_flat_of_rawScores (h : Inv s) (hflat : s.cfg.use_pq = false)
    {params : SearchParams X} (hr : Reaches s query params evaluator)
    (hscores : s.rawScores query s.centroids = .ok scores) {hits : List (Hit X)}
    (hsearch : s.search query params = .ok hits) :
    ∃ ps : List (InvertedListEntry X × F32), (ps.map fun p => p.1.seq).Nodup ∧
      (∀ e d, (e, d) ∈ ps ↔
        ∃ raw, s.Competes query evaluator scores e raw ∧ d = orient s.metric raw) ∧
      hits = ((rank Arith.totalCmp Prod.snd (fun p => p.1.seq) ps).take params.k.toNat).map
        hitOf := by
  have hscan : s.scan query evaluator params.k.toNat
      (((s.rankedScores scores).take s.cfg.n_probes).map Prod.snd) = .ok hits := by
    rw [hr.search_eq h, rankCentroids_of_rawScores hscores, ok_bind] at hsearch
    exact hsearch
  have hscanned : ∀ c, c ∈ ((s.rankedScores scores).take s.cfg.n_probes).map Prod.snd ↔
      s.Scanned scores c := fun c => mem_rankedScores_iff
  have hnodup : (((s.rankedScores scores).take s.cfg.n_probes).map Prod.snd).Nodup := by
    have hall : ((s.rankedScores scores).map Prod.snd).Nodup :=
      (((rank_perm _).map Prod.snd).nodup_iff).2 (zipIdx_snd_nodup scores)
    exact hall.sublist ((List.take_sublist _ _).map _)
  generalize ((s.rankedScores scores).take s.cfg.n_probes).map Prod.snd = probed
    at hscan hscanned hnodup
  have hlt : ∀ c ∈ probed, c < s.inverted_lists.length := by
    intro c hc
    obtain ⟨raw, hraw, -⟩ := (hscanned c).1 hc
    have hc' := (List.getElem?_eq_some_iff.1 hraw).1
    rwa [length_rawScores hscores, (h.centroids hr.trained).length_eq, ← h.lists_length] at hc'
  -- What the scan selects from are the candidates, each with the score in its batch.
  have hmeets := scanFlat_meets_of_lists (k := params.k.toNat) h hnodup hlt
    fun c hc list hlist => (listMeets_of_scored hc hlist : ListMeets s query _ _
      (list.filter fun e => keeps X evaluator e.metadata))
  unfold IvfIndex.scan at hscan
  rw [hflat, if_neg Bool.false_ne_true] at hscan
  obtain ⟨out, ⟨ps, hfst, hR, rfl⟩, rfl⟩ := hmeets.of_ok hscan
  refine ⟨ps, ?_, fun e d => ⟨fun hp => ?_, ?_⟩, rfl⟩
  · have hseqs := h.candidates_seqs evaluator hnodup
    rw [← hfst, List.map_map] at hseqs
    exact hseqs
  · obtain ⟨c, hc, raw, hraw, hd⟩ := hR _ hp
    exact ⟨raw, ⟨c, (hscanned c).1 hc, hraw⟩, hd⟩
  · rintro ⟨raw, ⟨c, hc, hraw⟩, rfl⟩
    obtain ⟨hholds, hkeeps⟩ := mem_kept.1 hraw.mem_kept
    have hcand : e ∈ ps.map Prod.fst := by
      rw [hfst]
      exact mem_candidates.2 ⟨⟨c, (hscanned c).2 hc, hholds⟩, hkeeps⟩
    obtain ⟨⟨e', d⟩, hmem, rfl⟩ := List.mem_map.1 hcand
    obtain ⟨c', -, raw', hraw', hd⟩ := hR _ hmem
    dsimp only at hraw' hd hraw ⊢
    rwa [h.scored_unique hraw hraw', ← hd]

end IqdbIvf
