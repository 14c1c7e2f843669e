import IqdbIvf.Model.Search
import IqdbIvf.Model.Train
import Mathlib.Data.Rat.Floor

/-!
# The operations of the index

`src/index.rs`: construction, training, inserts and deletes, the retraining of a live index, the
runtime setters and the probe recommendation. `train_pq` of `src/pq_variant.rs` is here too, beside
its two callers.
-/

namespace IqdbIvf

variable {F32 : Type} [Arith F32] {X : Crates F32}

/-- `PQ_K_CENTROIDS`. -/
def pqKCentroids : ℕ := 256

/-- `train_pq`. -/
def trainPq (X : Crates F32) (cfg : IvfConfig) (sample : List (List F32)) :
    Except IqdbError X.ProductQuantizer :=
  match cfg.pq_subvectors with
  | none => .error (.invalidConfig "IvfConfig.pq_subvectors must be Some(_) when use_pq = true")
  | some m => X.trainQuantizer (X.withConfig m pqKCentroids cfg.seed) sample

/-- The metrics that IVF-PQ supports. -/
def DistanceMetric.supportsPq : DistanceMetric → Bool
  | .euclidean | .dotProduct | .manhattan => true
  | .cosine | .hamming => false

/-- The shape checks of IVF-PQ in `IvfIndex::new_unconfigured`. -/
def checkPqShape (dim : ℕ) (metric : DistanceMetric) (cfg : IvfConfig) : Except IqdbError Unit :=
  if cfg.use_pq then
    if !metric.supportsPq then .error .invalidMetric
    else if cfg.pq_subvectors.getD 0 = 0 ∨ dim % cfg.pq_subvectors.getD 0 ≠ 0 then
      .error (.invalidConfig "IvfConfig.pq_subvectors must divide IvfIndex dim")
    else .ok ()
  else .ok ()

namespace IvfIndex

/-- `IvfIndex::new_unconfigured`. -/
def new (X : Crates F32) (dim : ℕ) (metric : DistanceMetric) (cfg : IvfConfig) :
    Except IqdbError (IvfIndex X) := do
  if dim = 0 then .error (.invalidConfig "IvfIndex dim must be greater than zero")
  cfg.validate
  checkPqShape dim metric cfg
  return {
    dim, metric, cfg
    trained := false
    centroids := []
    inverted_lists := List.replicate cfg.n_clusters []
    id_to_cluster := ∅
    next_seq := 0
    live_count := 0
    pq := none }

/-- `IvfIndex::len`. -/
def len (s : IvfIndex X) : ℕ := s.live_count

/-- `IvfIndex::set_n_probes`. -/
def setNProbes (n : ℕ) : Method X Unit := do
  let s ← get
  if n = 0 then
    throw (.err (.invalidConfig "IvfIndex::set_n_probes requires n >= 1"))
  else if n > s.cfg.n_clusters then
    throw (.err (.invalidConfig "IvfIndex::set_n_probes requires n <= n_clusters"))
  else
    set { s with cfg := { s.cfg with n_probes := n } }

/-- `IvfIndex::set_pq_refine_factor`. -/
def setPqRefineFactor (factor : UInt32) : Method X Unit :=
  modify fun s => { s with cfg := { s.cfg with pq_refine_factor := factor } }

/-- `IvfIndex::train`. -/
def train (sample : Slice (List F32)) : Method X Unit := do
  let s ← get
  if s.trained then
    throw (.err (.invalidConfig
      "IvfIndex is already trained; use retrain() to rebuild centroids"))
  else
    let centroids ← trainKmeans s.dim s.cfg.n_clusters s.cfg.seed sample.1
      s.cfg.training_sample_size
    debugAssert (centroids.length == s.cfg.n_clusters)
    modify fun s => { s with centroids := centroids }
    -- The codebooks are trained on the sample as it was passed in.
    if s.cfg.use_pq then
      let pq ← trainPq X s.cfg sample.1
      modify fun s => { s with pq := some pq }
    modify fun s => { s with trained := true }

/-- `self.inverted_lists[cluster].push(entry)`. -/
def pushEntry (cluster : ℕ) (entry : InvertedListEntry X) : Method X Unit := do
  let s ← get
  let list ← index s.inverted_lists cluster
  let lists ← assign s.inverted_lists cluster (list ++ [entry])
  set { s with inverted_lists := lists }

/-- The encoding of a vector through the quantizer of the index, when it has one. -/
def encode (s : IvfIndex X) (vector : List F32) : Except IqdbError (Option X.PqCode) :=
  match s.pq with
  | some pq => (X.quantize pq vector).map some
  | none => .ok none

/-- `sort_by_key(|e| e.seq)`, which is stable. -/
def sortBySeq (snapshot : List (InvertedListEntry X)) : List (InvertedListEntry X) :=
  snapshot.insertionSort fun a b => a.seq ≤ b.seq

/-- `if let Some(pq) = self.pq.as_ref() { entry.pq_code = .. }`, with the code that was computed. -/
def withCode (s : IvfIndex X) (entry : InvertedListEntry X) (code : Option X.PqCode) :
    InvertedListEntry X :=
  match s.pq with
  | some _ => { entry with pq_code := code }
  | none => entry

/-- The body of the reassign loop of `IvfIndex::retrain`. -/
def reassign (entry : InvertedListEntry X) : Method X Unit := do
  let s ← get
  let cluster ← assignToCluster s.centroids entry.vector
  let code ← s.encode entry.vector
  let entry := s.withCode entry code
  modify fun s => { s with id_to_cluster := s.id_to_cluster.insert entry.id cluster }
  pushEntry cluster entry
  modify fun s => { s with live_count := s.live_count + 1 }

/-- `IvfIndex::retrain`. -/
def retrain : Method X Unit := do
  let s ← get
  if !s.trained then
    throw (.err (.invalidConfig "IvfIndex must be trained before retrain()"))
  else if s.live_count = 0 then
    return
  else
    -- 1. Snapshot all entries; reset bookkeeping.
    let snapshot := s.inverted_lists.flatten
    let drained := s.inverted_lists.map fun _ => []
    set { s with inverted_lists := drained }
    debugAssert (drained.all List.isEmpty)
    modify fun s => { s with id_to_cluster := ∅, live_count := 0 }
    -- 2. Order by `seq`.
    let snapshot := sortBySeq snapshot
    -- 3. Build the capped working set.
    let all_refs := snapshot.map (·.vector)
    let target_len := min s.cfg.training_sample_size all_refs.length
    let (capped, _) ← subsampleRefs all_refs target_len (SplitMix64.new s.cfg.seed)
    -- 4. Train k-means on the capped sample.
    let centroids ← trainKmeans s.dim s.cfg.n_clusters s.cfg.seed capped capped.length
    debugAssert (centroids.length == s.cfg.n_clusters)
    modify fun s => { s with centroids := centroids }
    -- 5. Retrain the codebooks on the same capped sample.
    if s.cfg.use_pq then
      let pq ← trainPq X s.cfg capped
      modify fun s => { s with pq := some pq }
    -- 6. Reassign and re-encode every entry.
    snapshot.forM reassign

/-- `IvfIndex::require_trained`. -/
def requireTrained (s : IvfIndex X) : Except IqdbError Unit :=
  if !s.trained then .error (.invalidConfig "IvfIndex must be trained before use") else .ok ()

/-- `IvfIndex::check_dim`. -/
def checkDim (s : IvfIndex X) (vector_len : ℕ) : Except IqdbError Unit :=
  if vector_len ≠ s.dim then .error (.dimensionMismatch s.dim vector_len) else .ok ()

/-- `IvfIndex::insert_inner`. -/
def insert (id : X.VectorId) (vector : List F32) (metadata : Option X.Metadata) :
    Method X Unit := do
  let s ← get
  s.requireTrained
  s.checkDim vector.length
  if id ∈ s.id_to_cluster then
    throw (.err .duplicate)
  else
    -- The stamp is taken before the encoding, which can still fail.
    let seq := s.next_seq
    match checkedSucc s.next_seq with
    | none =>
      throw (.err (.invalidConfig "IvfIndex insertion sequence counter overflowed u64"))
    | some next_seq =>
      set { s with next_seq := next_seq }
      let cluster ← assignToCluster s.centroids vector
      let pq_code ← s.encode vector
      modify fun s => { s with id_to_cluster := s.id_to_cluster.insert id cluster }
      pushEntry cluster ⟨id, vector, pq_code, metadata, seq⟩
      modify fun s => { s with live_count := s.live_count + 1 }

/-- `Vec::swap_remove`: the last element takes the place of the removed one. -/
def swapRemove {α : Type} (xs : List α) (pos : ℕ) : Checked (List α) :=
  match xs.getLast? with
  | some last => if pos < xs.length then .ok ((xs.set pos last).dropLast)
    else .error .indexOutOfBounds
  | none => .error .indexOutOfBounds

/-- `IvfIndex::delete_inner`. -/
def delete (id : X.VectorId) : Method X Unit := do
  let s ← get
  match s.id_to_cluster.lookup id with
  | none => throw (.err .notFound)
  | some cluster =>
    -- The key goes first; the list is scanned afterwards.
    set { s with id_to_cluster := s.id_to_cluster.erase id }
    let list ← index s.inverted_lists cluster
    match list.findIdx? (fun e => e.id = id) with
    | none => throw (.err .notFound)
    | some pos =>
      let list ← swapRemove list pos
      let lists ← assign s.inverted_lists cluster list
      modify fun s => { s with inverted_lists := lists }
      let live_count ← subtract s.live_count 1
      modify fun s => { s with live_count := live_count }

/-- `IvfIndex::search_inner`. -/
def search (s : IvfIndex X) (query : List F32) (params : SearchParams X) :
    Fallible (List (Hit X)) := do
  s.requireTrained
  ivfSearch s query params

/-- The walk of `IvfIndex::suggest_n_probes` over the descending sizes: the 1-based position at
which the running sum reaches `target`. -/
def coverageWalk (target : ℕ) : ℕ → List (ℕ × ℕ) → Option ℕ
  | _, [] => none
  | cumsum, (size, i) :: rest =>
    let cumsum := saturatingAdd cumsum size
    -- The first prefix that reaches the target, as a count.
    if target ≤ cumsum then some (i + 1) else coverageWalk target cumsum rest

/-- `IvfIndex::suggest_n_probes`. The coverage is the exact value of the `f32`, `none` for a NaN
and the infinities, and the product with the live count is exact. -/
def suggestNProbes (s : IvfIndex X) (coverage : Option ℚ) : Fallible ℕ :=
  match coverage with
  | none =>
    fail (.invalidConfig "IvfIndex::suggest_n_probes requires coverage in [0.0, 1.0]")
  | some c => do
    if ¬(0 ≤ c ∧ c ≤ 1) then
      fail (.invalidConfig "IvfIndex::suggest_n_probes requires coverage in [0.0, 1.0]")
    else if !s.trained || s.live_count = 0 || s.cfg.n_clusters = 1 then return 1
    else if c = 0 then return 1
    else if c = 1 then return s.cfg.n_clusters
    else
      -- The largest clusters first.
      let sizes := (s.inverted_lists.map List.length).insertionSort fun a b => b ≤ a
      let target := ⌈(s.live_count : ℚ) * c⌉.toNat
      match coverageWalk target 0 sizes.zipIdx with
      | some n => clamp n 1 s.cfg.n_clusters
      | none => return s.cfg.n_clusters

end IvfIndex

/-! ## Diagnostics -/

/-- `IvfClusterStats`. -/
structure IvfClusterStats (F32 : Type) where
  n_clusters : ℕ
  cluster_sizes : List ℕ
  avg_size : F32
  size_variance : F32

/-- `IvfClusterStats::from_sizes`. -/
def IvfClusterStats.fromSizes (n_clusters : ℕ) (cluster_sizes : List ℕ) : IvfClusterStats F32 :=
  if cluster_sizes.length = 0 then ⟨n_clusters, cluster_sizes, 0, 0⟩
  else
    let len : Arith.F64 F32 := Double.ofInteger cluster_sizes.length
    let sum : Arith.F64 F32 := cluster_sizes.foldl (fun sum s => sum + Double.ofInteger s) 0
    let avg := sum / len
    let var_sum : Arith.F64 F32 := cluster_sizes.foldl (fun var_sum s =>
      let d := Double.ofInteger s - avg
      var_sum + d * d) 0
    ⟨n_clusters, cluster_sizes, Arith.narrow avg, Arith.narrow (var_sum / len)⟩

/-- `IvfIndex::cluster_stats`. -/
def IvfIndex.clusterStats (s : IvfIndex X) : IvfClusterStats F32 :=
  let sizes := if s.trained then s.inverted_lists.map List.length else []
  .fromSizes s.cfg.n_clusters sizes

end IqdbIvf
