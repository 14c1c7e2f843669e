import IqdbIvf.Model.Rng
import IqdbIvf.Model.Types

/-!
# Nearest centroid and k-means training

`src/assign.rs` and `src/train.rs`. A loop of the source is a fold over the list or the range that
it runs through, and the buffers that it writes are the accumulator of the fold. The generator is
passed along with the values that are drawn from it.
-/

namespace IqdbIvf

variable {F32 : Type} [Arith F32]

/-! ## Assignment -/

/-- `squared_l2`. -/
def squaredL2 (a b : List F32) : Checked F32 := do
  debugAssert (a.length == b.length)
  (List.range a.length).foldlM (fun sum i => do
    let d := (← index a i) - (← index b i)
    return sum + d * d) 0

/-- One step of the scan for the nearest centroid, over the best index and distance so far. -/
def nearerStep (vector : List F32) (best : ℕ × F32) (c : List F32 × ℕ) : Checked (ℕ × F32) := do
  let d ← squaredL2 c.1 vector
  -- The comparison is strict, so ties keep the lower index.
  return if Arith.lt d best.2 then (c.2, d) else best

/-- `assign_to_cluster`. -/
def assignToCluster (centroids : List (List F32)) (vector : List F32) : Checked ℕ := do
  debugAssert (!centroids.isEmpty)
  -- The scan starts from centroid 0 and goes over the others.
  let best_dist ← squaredL2 (← index centroids 0) vector
  let best ← (centroids.zipIdx.drop 1).foldlM (nearerStep vector) (0, best_dist)
  return best.1

/-! ## Subsampling -/

/-- One swap of the partial Fisher–Yates shuffle of `n` indices. -/
def shuffleStep (n : ℕ) (st : List ℕ × SplitMix64) (i : ℕ) : Checked (List ℕ × SplitMix64) := do
  let remaining := UInt64.ofNat (← subtract n i)
  let (draw, rng) ← st.2.nextBelow remaining
  let pick := i + draw.toNat
  return (← swap st.1 i pick, rng)

/-- `subsample_refs`. -/
def subsampleRefs {α : Type} (sample : List α) (target_len : ℕ) (rng : SplitMix64) :
    Checked (List α × SplitMix64) := do
  let n := sample.length
  let target := min target_len n
  -- The whole sample, in its order and without a draw.
  if target = n then return (sample, rng)
  let (indices, rng) ← (List.range target).foldlM (shuffleStep n) (List.range n, rng)
  -- The slice `indices[..target]` is in bounds: `target` is clamped to `n`.
  let chosen ← (indices.take target).mapM (index sample)
  return (chosen, rng)

/-! ## k-means++ seeding -/

/-- The inverse-CDF scan: the first index at which the running sum of the weights reaches
`target`. -/
def inverseCdf (target : Arith.F64 F32) (running : Arith.F64 F32) : List (F32 × ℕ) → Option ℕ
  | [] => none
  | (w, i) :: rest =>
    let running := running + Arith.widen w
    if Double.le target running then some i else inverseCdf target running rest

/-- The index of the next seed, drawn by weight. -/
def drawIndex (n : ℕ) (min_sq : List F32) (rng : SplitMix64) : Checked (ℕ × SplitMix64) := do
  let total : Arith.F64 F32 := min_sq.foldl (fun total w => total + Arith.widen w) 0
  if Double.le total 0 then
    -- Every point coincides with a seed: a uniform draw.
    let (draw, rng) ← rng.nextBelow (UInt64.ofNat n)
    return (draw.toNat, rng)
  else
    let unit : Arith.F64 F32 × SplitMix64 := rng.nextOpenUnit
    let target := unit.1 * total
    -- `n - 1` is chosen when rounding keeps the running sum below the target.
    let fallback ← subtract n 1
    return ((inverseCdf target 0 min_sq.zipIdx).getD fallback, unit.2)

/-- Lowers the distance of one point to its nearest seed. -/
def refreshStep (new_centroid : List F32) (min_sq : List F32) (p : List F32 × ℕ) :
    Checked (List F32) := do
  let d ← squaredL2 new_centroid p.1
  if Arith.lt d (← index min_sq p.2) then assign min_sq p.2 d else return min_sq

/-- The state of the seeding loop. -/
structure Seeding (F32 : Type) where
  /-- The seeds chosen so far. -/
  centroids : List (List F32)
  /-- The squared distance of each point to its nearest seed. -/
  min_sq : List F32
  /-- The generator. -/
  rng : SplitMix64

/-- One round of the seeding loop. -/
def seedStep (working_set : List (List F32)) (st : Seeding F32) : Checked (Seeding F32) := do
  let (next_idx, rng) ← drawIndex working_set.length st.min_sq st.rng
  let centroids := st.centroids ++ [← index working_set next_idx]
  let new_centroid ← index centroids (← subtract centroids.length 1)
  -- Only the new seed can lower a distance.
  let min_sq ← working_set.zipIdx.foldlM (refreshStep new_centroid) st.min_sq
  return ⟨centroids, min_sq, rng⟩

/-- `kmeans_plus_plus`. -/
def kmeansPlusPlus (dim n_clusters : ℕ) (working_set : List (List F32)) (rng : SplitMix64) :
    Checked (List (List F32) × SplitMix64) := do
  let n := working_set.length
  let (draw, rng) ← rng.nextBelow (UInt64.ofNat n)
  let first ← index working_set draw.toNat
  let min_sq ← working_set.mapM (squaredL2 first)
  let st ← (List.range' 1 (n_clusters - 1)).foldlM (fun st _ => seedStep working_set st)
    ⟨[first], min_sq, rng⟩
  debugAssert (st.centroids.length == n_clusters)
  debugAssert (st.centroids.all fun c => c.length == dim)
  return (st.centroids, st.rng)

/-! ## Lloyd's iterations -/

/-- `MAX_ITERS`. -/
def maxIters : ℕ := 25

/-- `relative_shift`. -/
def relativeShift (old new : List F32) : Checked F32 := do
  debugAssert (old.length == new.length)
  let (diff_sq, old_norm_sq) ← (List.range old.length).foldlM (fun acc i => do
    let d := (← index old i) - (← index new i)
    return (acc.1 + d * d, acc.2 + (← index old i) * (← index old i))) ((0 : F32), (0 : F32))
  let diff := Arith.sqrt diff_sq
  let denom := Arith.max (Arith.sqrt old_norm_sq) 1
  return diff / denom

/-- The reusable buffers of `lloyd`. -/
structure LloydBuffers (F32 : Type) [Arith F32] where
  /-- The coordinate sums of each cluster. -/
  sums : List (List (Arith.F64 F32))
  /-- The number of points of each cluster. -/
  counts : List ℕ
  /-- The cluster of each point. -/
  assignments : List ℕ

/-- The buffers as `lloyd` allocates them. -/
def LloydBuffers.alloc (n_clusters n dim : ℕ) : LloydBuffers F32 :=
  ⟨List.replicate n_clusters (List.replicate dim 0), List.replicate n_clusters 0,
    List.replicate n 0⟩

/-- Resets the accumulators; the assignments are only overwritten. -/
def LloydBuffers.reset (b : LloydBuffers F32) : LloydBuffers F32 :=
  { b with sums := b.sums.map fun s => s.map fun _ => 0, counts := b.counts.map fun _ => 0 }

/-- The assignment pass at one point. -/
def assignmentStep (centroids : List (List F32)) (b : LloydBuffers F32) (p : List F32 × ℕ) :
    Checked (LloydBuffers F32) := do
  let c ← assignToCluster centroids p.1
  let assignments ← assign b.assignments p.2 c
  let s ← p.1.zipIdx.foldlM (fun s x => do assign s x.2 ((← index s x.2) + Arith.widen x.1))
    (← index b.sums c)
  let sums ← assign b.sums c s
  let counts ← assign b.counts c ((← index b.counts c) + 1)
  return ⟨sums, counts, assignments⟩

/-- The distance from `v` to its nearest centroid, as the empty-cluster recovery computes it. -/
def nearestDistance (centroids : List (List F32)) (v : List F32) : Checked F32 := do
  let nearest ← squaredL2 (← index centroids 0) v
  (centroids.drop 1).foldlM (fun nearest cc => do
    let d ← squaredL2 cc v
    return if Arith.lt d nearest then d else nearest) nearest

/-- The search for the most isolated point, over its index and distance so far. -/
def isolatedStep (centroids : List (List F32)) (best : ℕ × F32) (p : List F32 × ℕ) :
    Checked (ℕ × F32) := do
  let nearest ← nearestDistance centroids p.1
  return if Arith.lt best.2 nearest then (p.2, nearest) else best

/-- The new position of centroid `c`: the mean of its points, or the most isolated point when it
has none. -/
def newCentroid (working_set : List (List F32)) (b : LloydBuffers F32)
    (centroids : List (List F32)) (c : ℕ) : Checked (List F32) := do
  let count ← index b.counts c
  if count = 0 then
    -- `centroids` is the list that this pass is updating, partly moved already.
    let best ← working_set.zipIdx.foldlM (isolatedStep centroids) (0, -1)
    index working_set best.1
  else
    let inv : Arith.F64 F32 := 1 / Double.ofInteger count
    return (← index b.sums c).map fun s => Arith.narrow (s * inv)

/-- The update of one centroid in place, with the largest shift so far. -/
def updateStep (working_set : List (List F32)) (b : LloydBuffers F32)
    (st : List (List F32) × F32) (c : ℕ) : Checked (List (List F32) × F32) := do
  let new_centroid ← newCentroid working_set b st.1 c
  let shift ← relativeShift (← index st.1 c) new_centroid
  let max_rel_shift := if Arith.lt st.2 shift then shift else st.2
  return (← assign st.1 c new_centroid, max_rel_shift)

/-- One pass of `lloyd`: the buffers, the new centroids and the largest relative shift. -/
def lloydPass (working_set : List (List F32)) (centroids : List (List F32))
    (b : LloydBuffers F32) : Checked (LloydBuffers F32 × List (List F32) × F32) := do
  let b ← working_set.zipIdx.foldlM (assignmentStep centroids) b.reset
  let (centroids, shift) ← (List.range centroids.length).foldlM (updateStep working_set b)
    (centroids, 0)
  return (b, centroids, shift)

/-- The passes of `lloyd`, until convergence or the given number of them. -/
def lloydLoop (working_set : List (List F32)) :
    ℕ → List (List F32) → LloydBuffers F32 → Checked (List (List F32))
  | 0, centroids, _ => return centroids
  | iters + 1, centroids, b => do
    let (b, centroids, shift) ← lloydPass working_set centroids b
    if Arith.lt shift Arith.tenThousandth then return centroids
    else lloydLoop working_set iters centroids b

/-- `lloyd`. -/
def lloyd (centroids working_set : List (List F32)) (dim : ℕ) : Checked (List (List F32)) :=
  lloydLoop working_set maxIters centroids
    (LloydBuffers.alloc centroids.length working_set.length dim)

/-! ## Training -/

/-- The pre-checks of `train_kmeans`. -/
def trainPrechecks (dim n_clusters : ℕ) (sample : List (List F32)) : Except IqdbError Unit :=
  if sample.isEmpty then
    .error (.invalidConfig "IvfIndex::train requires a non-empty sample")
  else
    match sample.find? (fun v => v.length != dim) with
    | some v => .error (.dimensionMismatch dim v.length)
    | none =>
      if sample.length < n_clusters then
        .error (.invalidConfig "IvfIndex::train requires sample.len() >= n_clusters")
      else .ok ()

/-- `train_kmeans`. -/
def trainKmeans (dim n_clusters : ℕ) (seed : UInt64) (sample : List (List F32))
    (training_sample_size : ℕ) : Fallible (List (List F32)) := do
  trainPrechecks dim n_clusters sample
  let rng := SplitMix64.new seed
  let target_len := min training_sample_size sample.length
  -- The subsample and the seeds are drawn from one generator.
  let (working_set, rng) ← subsampleRefs sample target_len rng
  let (centroids, _) ← kmeansPlusPlus dim n_clusters working_set rng
  lloyd centroids working_set dim

end IqdbIvf
