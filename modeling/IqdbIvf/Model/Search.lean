import IqdbIvf.Model.State
import IqdbIvf.Model.Topk

/-!
# Search

`src/search.rs` and `src/pq_variant.rs`: the ranking of the centroids, the four scans of the probed
clusters, and the exact rerank of a shortlist. A scan fills three parallel buffers, which
`Candidates` keeps together; the loops over clusters and entries are folds over it.
-/

namespace IqdbIvf

variable {F32 : Type} [Arith F32] {X : Crates F32}

/-- The sign convention of the distances: the raw inner product is negated, so that smaller is
nearer for every metric. -/
def orient (metric : DistanceMetric) (d : F32) : F32 :=
  if metric = .dotProduct then -d else d

/-- `compute_batch` into a fresh buffer, with the sign convention applied in place. -/
def orientedBatch (X : Crates F32) (metric : DistanceMetric) (query : List F32)
    (refs : List (List F32)) : Except IqdbError (List F32) := do
  let dists ← X.computeBatch metric query refs (List.replicate refs.length 0)
  return dists.1.map (orient metric)

/-- `IvfIndex::inverted_list`. -/
def IvfIndex.invertedList (s : IvfIndex X) (cluster : ℕ) : Checked (List (InvertedListEntry X)) :=
  index s.inverted_lists cluster

/-- `index.inverted_list(c)[pos]`. -/
def IvfIndex.entryAt (s : IvfIndex X) (addr : ℕ × ℕ) : Checked (InvertedListEntry X) := do
  index (← s.invertedList addr.1) addr.2

/-- The parallel candidate buffers of a scan. -/
structure Candidates (F32 : Type) where
  /-- `candidate_distances`. -/
  distances : List F32
  /-- `candidate_seqs`. -/
  seqs : List ℕ
  /-- `candidate_addrs`: the cluster and the position in it. -/
  addrs : List (ℕ × ℕ)

/-- The empty buffers. -/
def Candidates.empty : Candidates F32 := ⟨[], [], []⟩

/-- Pushes one candidate onto each buffer. -/
def Candidates.push (b : Candidates F32) (d : F32) (seq : ℕ) (addr : ℕ × ℕ) : Candidates F32 :=
  ⟨b.distances ++ [d], b.seqs ++ [seq], b.addrs ++ [addr]⟩

/-- The hits at the chosen positions of the buffers. -/
def buildHits (s : IvfIndex X) (chosen : List ℕ) (distances : List F32) (addrs : List (ℕ × ℕ)) :
    Checked (List (Hit X)) :=
  chosen.mapM fun idx => do
    let entry ← s.entryAt (← index addrs idx)
    return ⟨entry.id, ← index distances idx, entry.metadata⟩

/-! ## IVF-Flat -/

/-- The cluster loop of `scan_flat_unfiltered`. -/
def scanFlatUnfilteredStep (s : IvfIndex X) (query : List F32) (b : Candidates F32) (c : ℕ) :
    Fallible (Candidates F32) := do
  let list ← s.invertedList c
  -- `compute_batch` is not called for an empty cluster.
  if list.isEmpty then return b
  let dists ← orientedBatch X s.metric query (list.map (·.vector))
  list.zipIdx.foldlM (fun b p => do return b.push (← index dists p.2) p.1.seq (c, p.2)) b

/-- `scan_flat_unfiltered`. -/
def scanFlatUnfiltered (s : IvfIndex X) (query : List F32) (probed : List ℕ) (k : ℕ) :
    Fallible (List (Hit X)) := do
  let b ← probed.foldlM (scanFlatUnfilteredStep s query) .empty
  if b.distances.isEmpty then return []
  let chosen ← selectTopkIndices b.distances b.seqs k
  buildHits s chosen b.distances b.addrs

/-- The cluster loop of `scan_flat_filtered`. -/
def scanFlatFilteredStep (s : IvfIndex X) (evaluator : X.FilterEvaluator) (query : List F32)
    (b : Candidates F32) (c : ℕ) : Fallible (Candidates F32) := do
  let list ← s.invertedList c
  if list.isEmpty then return b
  -- The survivors keep their positions in the list, which the addresses need.
  let survivors := list.zipIdx.filter fun p => X.evaluate evaluator p.1.metadata
  let survivor_positions := survivors.map fun p => p.2
  let survivor_refs := survivors.map fun p => p.1.vector
  if survivor_refs.isEmpty then return b
  let dists ← orientedBatch X s.metric query survivor_refs
  survivor_positions.zipIdx.foldlM (fun b p => do
    return b.push (← index dists p.2) (← index list p.1).seq (c, p.1)) b

/-- `scan_flat_filtered`. -/
def scanFlatFiltered (s : IvfIndex X) (evaluator : X.FilterEvaluator) (query : List F32)
    (probed : List ℕ) (k : ℕ) : Fallible (List (Hit X)) := do
  let b ← probed.foldlM (scanFlatFilteredStep s evaluator query) .empty
  if b.distances.isEmpty then return []
  let chosen ← selectTopkIndices b.distances b.seqs k
  buildHits s chosen b.distances b.addrs

/-! ## IVF-PQ -/

/-- `build_hits_from_adc`. -/
def buildHitsFromAdc (s : IvfIndex X) (chosen : List ℕ) (cand_distances : List F32)
    (cand_addrs : List (ℕ × ℕ)) : Checked (List (Hit X)) :=
  buildHits s chosen cand_distances cand_addrs

/-- `refine_shortlist`. -/
def refineShortlist (s : IvfIndex X) (query : List F32) (shortlist : List ℕ)
    (cand_addrs : List (ℕ × ℕ)) (k : ℕ) : Fallible (List (Hit X)) := do
  if shortlist.isEmpty then return []
  let picked ← shortlist.mapM fun cand_idx => (do
    let addr ← index cand_addrs cand_idx
    let entry ← s.entryAt addr
    return (entry.vector, entry.seq, addr) : Checked (List F32 × ℕ × (ℕ × ℕ)))
  let refs := picked.map fun p => p.1
  let seqs := picked.map fun p => p.2.1
  let addrs := picked.map fun p => p.2.2
  -- From here on positions are those in the shortlist, not in the candidate buffers.
  let exact ← orientedBatch X s.metric query refs
  let chosen ← selectTopkIndices exact seqs k
  buildHits s chosen exact addrs

/-- `finish_scan_pq`. -/
def finishScanPq (s : IvfIndex X) (query : List F32) (k : ℕ) (b : Candidates F32) :
    Fallible (List (Hit X)) := do
  let refine_factor := s.cfg.pq_refine_factor
  if refine_factor = 0 then
    -- Pure ADC: the ADC distances are reported.
    let chosen ← selectTopkIndices b.distances b.seqs k
    buildHitsFromAdc s chosen b.distances b.addrs
  else
    -- `saturating_mul`, then the cap at the number of candidates.
    let shortlist_k := min (saturatingMul refine_factor.toNat k) b.distances.length
    let shortlist ← selectTopkIndices b.distances b.seqs shortlist_k
    refineShortlist s query shortlist b.addrs k

/-- The quantizer that a PQ scan needs, or the error of an index without one. -/
def IvfIndex.pqOrErr (s : IvfIndex X) : Except IqdbError X.ProductQuantizer :=
  match s.pq with
  | some pq => .ok pq
  | none => .error (.invalidConfig "IvfIndex is in IVF-PQ mode but the quantizer was not trained")

/-- The entry loop of `scan_pq_unfiltered` over one cluster. -/
def scanPqUnfilteredStep (s : IvfIndex X) (tables : X.PqAdcTables) (b : Candidates F32) (c : ℕ) :
    Fallible (Candidates F32) := do
  let list ← s.invertedList c
  list.zipIdx.foldlM (fun b p => do
    let code ← p.1.pqCodeOrErr
    let d ← X.adcDistance tables code
    return b.push (orient s.metric d) p.1.seq (c, p.2)) b

/-- `scan_pq_unfiltered`. -/
def scanPqUnfiltered (s : IvfIndex X) (query : List F32) (probed : List ℕ) (k : ℕ) :
    Fallible (List (Hit X)) := do
  let pq ← s.pqOrErr
  let tables ← X.buildQueryTables pq query s.metric
  let b ← probed.foldlM (scanPqUnfilteredStep s tables) .empty
  if b.distances.isEmpty then return []
  finishScanPq s query k b

/-- The entry loop of `scan_pq_filtered` over one cluster. -/
def scanPqFilteredStep (s : IvfIndex X) (evaluator : X.FilterEvaluator) (tables : X.PqAdcTables)
    (b : Candidates F32) (c : ℕ) : Fallible (Candidates F32) := do
  let list ← s.invertedList c
  list.zipIdx.foldlM (fun b p => do
    -- The filter comes before the code is looked at.
    if !X.evaluate evaluator p.1.metadata then return b
    let code ← p.1.pqCodeOrErr
    let d ← X.adcDistance tables code
    return b.push (orient s.metric d) p.1.seq (c, p.2)) b

/-- `scan_pq_filtered`. -/
def scanPqFiltered (s : IvfIndex X) (evaluator : X.FilterEvaluator) (query : List F32)
    (probed : List ℕ) (k : ℕ) : Fallible (List (Hit X)) := do
  let pq ← s.pqOrErr
  let tables ← X.buildQueryTables pq query s.metric
  let b ← probed.foldlM (scanPqFilteredStep s evaluator tables) .empty
  if b.distances.isEmpty then return []
  finishScanPq s query k b

/-! ## Dispatch -/

/-- The filter evaluator of a query, validated once. -/
def evaluatorOf (X : Crates F32) (filter : Option X.Filter) :
    Except IqdbError (Option X.FilterEvaluator) :=
  match filter with
  | none => .ok none
  | some f => (X.newEvaluator f).map some

/-- Pass 1 of `ivf_search`: the clusters to probe, nearest centroid first. -/
def rankCentroids (s : IvfIndex X) (query : List F32) : Fallible (List ℕ) := do
  let centroid_dists ← orientedBatch X s.metric query s.centroids
  -- The cluster ids stand in for stamps: ties go to the lower one.
  let centroid_seqs := List.range s.centroids.length
  let n_probes := min s.cfg.n_probes s.centroids.length
  selectTopkIndices centroid_dists centroid_seqs n_probes

/-- `ivf_search`. -/
def ivfSearch (s : IvfIndex X) (query : List F32) (params : SearchParams X) :
    Fallible (List (Hit X)) := do
  if query.length ≠ s.dim then fail (.dimensionMismatch s.dim query.length)
  else if params.metric ≠ s.metric then fail .invalidMetric
  else if params.k = 0 || s.live_count = 0 then return []
  else
    let evaluator ← evaluatorOf X params.filter
    -- Defensive in the source: a trained index has centroids.
    if s.centroids.isEmpty then return []
    let probed ← rankCentroids s query
    match s.cfg.use_pq, evaluator with
    | false, none => scanFlatUnfiltered s query probed params.k.toNat
    | false, some eval => scanFlatFiltered s eval query probed params.k.toNat
    | true, none => scanPqUnfiltered s query probed params.k.toNat
    | true, some eval => scanPqFiltered s eval query probed params.k.toNat

end IqdbIvf
