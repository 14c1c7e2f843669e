import IqdbIvf.Spec.Subsample
import Mathlib.Order.MinMax

/-!
# Training neither panics nor loops

Every index that the trainer computes is in bounds, no subtraction underflows and every debug
assertion holds, for every arithmetic and every sample that passes the pre-checks. What it returns
is `n_clusters` centroids of the index's dimension. The working set may be smaller than
`n_clusters`: all that the seeding needs of it is that it is not empty.
-/

namespace IqdbIvf

open Outcome

variable {F32 : Type} [Arith F32] {α : Type}

/-! ## Checked operations -/

/-- Indexing within the bounds returns an element. -/
theorem index_returns {xs : List α} {i : ℕ} (h : i < xs.length) :
    Returns (index xs i) fun x => x ∈ xs := by
  rw [index_of_lt h]
  exact List.getElem_mem h

/-- Assigning within the bounds keeps the length. -/
theorem assign_returns {xs : List α} {i : ℕ} (x : α) (h : i < xs.length) :
    Returns (assign xs i x) fun ys => ys = xs.set i x := by
  rw [assign_of_lt x h]
  exact rfl

/-- The members of an enumerated list are the elements, with positions within the bounds. -/
theorem mem_zipIdx_bounds {xs : List α} {x : α} {i : ℕ} (h : (x, i) ∈ xs.zipIdx) :
    i < xs.length ∧ x ∈ xs := by
  have hi := List.mem_zipIdx h
  exact ⟨by omega, List.fst_mem_of_mem_zipIdx h⟩

/-! ## Assignment -/

/-- The squared distance of two vectors of one length. -/
theorem squaredL2_returns {a b : List F32} (h : a.length = b.length) :
    Returns (squaredL2 a b) fun _ => True := by
  unfold squaredL2
  rw [debugAssert_of (by simpa using h), ok_bind]
  apply Meets.foldlM_inv (fun _ => True) trivial
  -- Both reads of the body are in bounds, because the vectors have one length.
  intro i hi sum _
  have hia : i < a.length := List.mem_range.1 hi
  rw [index_of_lt hia, ok_bind, index_of_lt (h ▸ hia), ok_bind]
  trivial

/-- `assign_to_cluster` returns one of the centroids' positions. -/
theorem assignToCluster_returns {centroids : List (List F32)} {vector : List F32}
    (hne : centroids ≠ []) (hdim : ∀ c ∈ centroids, c.length = vector.length) :
    Returns (assignToCluster centroids vector) fun c => c < centroids.length := by
  unfold assignToCluster
  have hpos : 0 < centroids.length := List.length_pos_iff.2 hne
  rw [debugAssert_of (by simp [hne]), ok_bind, index_of_lt hpos, ok_bind]
  apply Meets.bind (squaredL2_returns (hdim _ (List.getElem_mem hpos)))
  intro best_dist _
  -- The best index so far stays one of a centroid.
  refine Meets.bind (P := fun best => best.1 < centroids.length) ?_ fun best hbest => hbest
  apply Meets.foldlM_inv (fun best : ℕ × F32 => best.1 < centroids.length) hpos
  intro ⟨c, i⟩ hci best hbest
  obtain ⟨hi, hc⟩ := mem_zipIdx_bounds (List.mem_of_mem_drop hci)
  unfold nearerStep
  apply Meets.bind (squaredL2_returns (hdim c hc))
  intro d _
  dsimp only
  split_ifs
  · exact hi
  · exact hbest

/-! ## k-means++ seeding -/

/-- The inverse-CDF scan answers one of the indices. -/
theorem inverseCdf_mem {target running : Arith.F64 F32} {ws : List (F32 × ℕ)} {i : ℕ}
    (h : inverseCdf target running ws = some i) : ∃ w, (w, i) ∈ ws := by
  induction ws generalizing running with
  | nil => cases h
  | cons p ws ih =>
    obtain ⟨w, j⟩ := p
    rw [inverseCdf] at h
    split_ifs at h
    · cases h
      exact ⟨w, List.mem_cons_self⟩
    · obtain ⟨w', hw'⟩ := ih h
      exact ⟨w', List.mem_cons_of_mem _ hw'⟩

/-- The index of the next seed is an index of the working set. -/
theorem drawIndex_returns {n : ℕ} (hn : n < 2^64) (hpos : 0 < n) {min_sq : List F32}
    (hlen : min_sq.length = n) (rng : SplitMix64) :
    Returns (drawIndex n min_sq rng) fun r => r.1 < n := by
  unfold drawIndex
  dsimp only
  split_ifs
  · -- All weights are zero.
    apply Meets.bind (nextBelow_length_returns hn hpos rng)
    intro r hr
    exact hr
  · generalize (rng.nextOpenUnit : Arith.F64 F32 × SplitMix64) = unit
    generalize unit.1 * _ = target
    rw [subtract_of_le hpos, ok_bind, pure_eq_ok, returns_ok]
    -- The scan answers an index of the weights, or the last point is taken.
    cases hi : inverseCdf target 0 min_sq.zipIdx with
    | none => exact Nat.sub_lt hpos Nat.one_pos
    | some i =>
      obtain ⟨w, hw⟩ := inverseCdf_mem hi
      obtain ⟨hlt, -⟩ := mem_zipIdx_bounds hw
      rwa [hlen] at hlt

/-- The shape of the seeding state: some seeds of dimension `dim`, and a distance for each
point. -/
structure Seeding.WellFormed (dim n : ℕ) (st : Seeding F32) : Prop where
  dims : ∀ c ∈ st.centroids, c.length = dim
  min_sq_length : st.min_sq.length = n

/-- Lowering the distance of one point keeps the number of distances. -/
theorem refreshStep_returns {dim : ℕ} {new_centroid min_sq : List F32}
    {p : List F32 × ℕ} (hc : new_centroid.length = dim) (hp : p.1.length = dim)
    (hi : p.2 < min_sq.length) :
    Returns (refreshStep new_centroid min_sq p) fun ms => ms.length = min_sq.length := by
  unfold refreshStep
  apply Meets.bind (squaredL2_returns (hc.trans hp.symm))
  intro d _
  rw [index_of_lt hi, ok_bind]
  split_ifs
  · rw [assign_of_lt d hi]
    exact List.length_set
  · exact rfl

/-- One round of the seeding adds one seed. -/
theorem seedStep_returns {dim : ℕ} {ws : List (List F32)} (hn : ws.length < 2^64)
    (hpos : 0 < ws.length) (hdim : ∀ v ∈ ws, v.length = dim) {st : Seeding F32}
    (hst : st.WellFormed dim ws.length) :
    Returns (seedStep ws st) fun st' =>
      st'.WellFormed dim ws.length ∧ st'.centroids.length = st.centroids.length + 1 := by
  unfold seedStep
  apply Meets.bind (drawIndex_returns hn hpos hst.min_sq_length st.rng)
  intro ⟨next_idx, rng⟩ hnext
  dsimp only at hnext ⊢
  have hv : ws[next_idx].length = dim := hdim _ (List.getElem_mem hnext)
  have hlen : (st.centroids ++ [ws[next_idx]]).length = st.centroids.length + 1 := by simp
  rw [index_of_lt hnext, ok_bind, subtract_of_le (by omega), ok_bind,
    index_of_lt (by omega), ok_bind]
  have hlast : (st.centroids ++ [ws[next_idx]])[(st.centroids ++ [ws[next_idx]]).length - 1] =
      ws[next_idx] := by simp
  -- The refresh runs over the points and keeps a distance for each.
  rw [hlast]
  refine Meets.bind (P := fun ms => ms.length = ws.length) ?_ fun ms hms => ⟨⟨?_, hms⟩, hlen⟩
  · apply Meets.foldlM_inv (fun ms : List F32 => ms.length = ws.length) hst.min_sq_length
    intro ⟨v, i⟩ hvi ms hms
    obtain ⟨hi, hvmem⟩ := mem_zipIdx_bounds hvi
    have hi' : i < ms.length := by omega
    apply Meets.mono (refreshStep_returns hv (hdim v hvmem) hi') _ fun _ => id
    intro ms' hms'
    exact hms'.trans hms
  · intro c hc
    rcases List.mem_append.1 hc with hc | hc
    · exact hst.dims c hc
    · rw [List.mem_singleton.1 hc]
      exact hv

/-- The seeding returns `n_clusters` vectors of the working set's dimension. -/
theorem kmeansPlusPlus_returns {dim n_clusters : ℕ} (hk : 1 ≤ n_clusters) {ws : List (List F32)}
    (hn : ws.length < 2^64) (hpos : 0 < ws.length) (hdim : ∀ v ∈ ws, v.length = dim)
    (rng : SplitMix64) :
    Returns (kmeansPlusPlus dim n_clusters ws rng) fun r =>
      r.1.length = n_clusters ∧ ∀ c ∈ r.1, c.length = dim := by
  unfold kmeansPlusPlus
  dsimp only
  apply Meets.bind (nextBelow_length_returns hn hpos rng)
  intro ⟨draw, rng'⟩ hdraw
  dsimp only at hdraw ⊢
  have hfirst : ws[draw.toNat].length = dim := hdim _ (List.getElem_mem hdraw)
  rw [index_of_lt hdraw, ok_bind]
  have hmin : Returns (ws.mapM (squaredL2 ws[draw.toNat])) (List.Forall₂ (fun _ _ => True) ws) :=
    Meets.mapM fun v hv => squaredL2_returns (hfirst.trans (hdim v hv).symm)
  apply Meets.bind hmin
  intro min_sq hmin_sq
  -- After `i` rounds there are `i + 1` seeds.
  refine Meets.bind (P := fun st : Seeding F32 => st.WellFormed dim ws.length ∧
    st.centroids.length = n_clusters) ?_ fun st ⟨hwf, hlen⟩ => ?_
  · refine Meets.mono (Meets.foldlM (fun pre (st : Seeding F32) => st.WellFormed dim ws.length ∧
      st.centroids.length = pre.length + 1) _ ?_ ?_) ?_ fun _ => id
    · refine ⟨⟨fun c hc => ?_, hmin_sq.length_eq.symm⟩, rfl⟩
      rw [List.mem_singleton.1 hc]
      exact hfirst
    · intro pre a post _ st ⟨hwf, hlen⟩
      apply Meets.mono (seedStep_returns hn hpos hdim hwf) _ fun _ => id
      intro st' ⟨hwf', hlen'⟩
      refine ⟨hwf', ?_⟩
      rw [hlen', hlen, List.length_append, List.length_singleton]
    · intro st ⟨hwf, hlen⟩
      refine ⟨hwf, ?_⟩
      rw [hlen, List.length_range']
      omega
  · have hall : (st.centroids.all fun c => c.length == dim) = true := by
      rw [List.all_eq_true]
      intro c hc
      rw [beq_iff_eq]
      exact hwf.dims c hc
    rw [debugAssert_of (by rw [beq_iff_eq]; exact hlen), ok_bind, debugAssert_of hall, ok_bind]
    exact ⟨hlen, hwf.dims⟩

/-! ## Lloyd's iterations -/

/-- The shift of a centroid between two positions of one dimension. -/
theorem relativeShift_returns {old new : List F32} (h : old.length = new.length) :
    Returns (relativeShift old new) fun _ => True := by
  unfold relativeShift
  rw [debugAssert_of (by rw [beq_iff_eq]; exact h), ok_bind]
  refine Meets.bind (P := fun _ => True) ?_ fun _ _ => trivial
  apply Meets.foldlM_inv (fun _ => True) trivial
  intro i hi acc _
  have hold : i < old.length := List.mem_range.1 hi
  have hnew : i < new.length := h ▸ hold
  rw [index_of_lt hold, ok_bind, index_of_lt hnew, ok_bind]
  trivial

/-- The shape of the buffers: a sum of dimension `dim` and a count for each of `k` clusters, and a
cluster for each of `n` points. -/
structure LloydBuffers.WellFormed (dim k n : ℕ) (b : LloydBuffers F32) : Prop where
  sums_length : b.sums.length = k
  sums_dim : ∀ s ∈ b.sums, s.length = dim
  counts_length : b.counts.length = k
  assignments_length : b.assignments.length = n

/-- The buffers are allocated in shape. -/
theorem LloydBuffers.alloc_wellFormed (k n dim : ℕ) :
    (LloydBuffers.alloc k n dim : LloydBuffers F32).WellFormed dim k n where
  sums_length := List.length_replicate
  sums_dim s hs := by rw [List.eq_of_mem_replicate hs, List.length_replicate]
  counts_length := List.length_replicate
  assignments_length := List.length_replicate

/-- Resetting keeps the shape. -/
theorem LloydBuffers.WellFormed.reset {dim k n : ℕ} {b : LloydBuffers F32}
    (h : b.WellFormed dim k n) : b.reset.WellFormed dim k n where
  sums_length := (List.length_map _).trans h.sums_length
  sums_dim s hs := by
    obtain ⟨s', hs', rfl⟩ := List.mem_map.1 hs
    rw [List.length_map]
    exact h.sums_dim s' hs'
  counts_length := (List.length_map _).trans h.counts_length
  assignments_length := h.assignments_length

/-- `k` centroids of dimension `dim`. -/
structure Centroids (dim k : ℕ) (cs : List (List F32)) : Prop where
  length_eq : cs.length = k
  dims : ∀ c ∈ cs, c.length = dim

omit [Arith F32] in
/-- Moving one centroid within the dimension keeps the shape. -/
theorem Centroids.set {dim k : ℕ} {cs : List (List F32)} (h : Centroids dim k cs) (i : ℕ)
    {c : List F32} (hc : c.length = dim) : Centroids dim k (cs.set i c) where
  length_eq := List.length_set.trans h.length_eq
  dims c' hc' := by
    rcases List.mem_or_eq_of_mem_set hc' with hc' | rfl
    · exact h.dims c' hc'
    · exact hc

/-- A vector of the dimension is assigned to one of the centroids. -/
theorem Centroids.assign_returns {dim k : ℕ} {cs : List (List F32)} (h : Centroids dim k cs)
    (hk : 1 ≤ k) {v : List F32} (hv : v.length = dim) :
    Returns (assignToCluster cs v) fun c => c < k := by
  have hne : cs ≠ [] := by
    rintro rfl
    have hlen := h.length_eq
    rw [List.length_nil] at hlen
    omega
  have hret := assignToCluster_returns hne fun c hc => (h.dims c hc).trans hv.symm
  rwa [h.length_eq] at hret

section Pass

variable {dim k : ℕ} {ws cs : List (List F32)}

/-- The assignment pass at one point keeps the shape of the buffers. -/
theorem assignmentStep_returns (hk : 1 ≤ k) (hcs : Centroids dim k cs) {b : LloydBuffers F32}
    {n : ℕ} (hb : b.WellFormed dim k n) {p : List F32 × ℕ} (hp : p.1.length = dim)
    (hi : p.2 < n) : Returns (assignmentStep cs b p) fun b' => b'.WellFormed dim k n := by
  unfold assignmentStep
  apply Meets.bind (hcs.assign_returns hk hp)
  intro c hc
  have hsum : c < b.sums.length := by rw [hb.sums_length]; exact hc
  have hcount : c < b.counts.length := by rw [hb.counts_length]; exact hc
  have hsdim : b.sums[c].length = dim := hb.sums_dim _ (List.getElem_mem hsum)
  rw [assign_of_lt c (by rw [hb.assignments_length]; exact hi), ok_bind, index_of_lt hsum, ok_bind]
  -- The coordinates are added into a sum of the same dimension.
  refine Meets.bind (P := fun s => s.length = dim) ?_ ?_
  · apply Meets.foldlM_inv (fun s : List (Arith.F64 F32) => s.length = dim) hsdim
    intro ⟨x, j⟩ hx s hs
    obtain ⟨hj, -⟩ := mem_zipIdx_bounds hx
    have hjs : j < s.length := by rw [hs, ← hp]; exact hj
    rw [index_of_lt hjs, ok_bind, assign_of_lt _ hjs]
    exact List.length_set.trans hs
  · intro s hs
    rw [assign_of_lt s hsum, ok_bind, index_of_lt hcount, ok_bind, assign_of_lt _ hcount, ok_bind]
    refine ⟨List.length_set.trans hb.sums_length, fun s' hs' => ?_,
      List.length_set.trans hb.counts_length, List.length_set.trans hb.assignments_length⟩
    rcases List.mem_or_eq_of_mem_set hs' with hs' | rfl
    · exact hb.sums_dim s' hs'
    · exact hs

/-- The distance to the nearest of some centroids of the vector's dimension. -/
theorem nearestDistance_returns (hk : 1 ≤ k) (hcs : Centroids dim k cs) {v : List F32}
    (hv : v.length = dim) : Returns (nearestDistance cs v) fun _ => True := by
  unfold nearestDistance
  have hpos : 0 < cs.length := by rw [hcs.length_eq]; exact hk
  rw [index_of_lt hpos, ok_bind]
  apply Meets.bind (squaredL2_returns ((hcs.dims _ (List.getElem_mem hpos)).trans hv.symm))
  intro nearest _
  apply Meets.foldlM_inv (fun _ => True) trivial
  intro cc hcc nearest' _
  apply Meets.bind (squaredL2_returns ((hcs.dims cc (List.mem_of_mem_drop hcc)).trans hv.symm))
  intro d _
  trivial

/-- The new position of a centroid has the dimension. -/
theorem newCentroid_returns (hk : 1 ≤ k) (hpos : 0 < ws.length)
    (hdim : ∀ v ∈ ws, v.length = dim) {b : LloydBuffers F32} {n : ℕ} (hb : b.WellFormed dim k n)
    (hcs : Centroids dim k cs) {c : ℕ} (hc : c < k) :
    Returns (newCentroid ws b cs c) fun v => v.length = dim := by
  unfold newCentroid
  rw [index_of_lt (by rw [hb.counts_length]; exact hc), ok_bind]
  split_ifs
  · -- An empty cluster moves to a point, whose index the search keeps in bounds.
    refine Meets.bind (P := fun best => best.1 < ws.length) ?_ ?_
    · apply Meets.foldlM_inv (fun best : ℕ × F32 => best.1 < ws.length) hpos
      intro ⟨v, i⟩ hvi best hbest
      obtain ⟨hi, hv⟩ := mem_zipIdx_bounds hvi
      unfold isolatedStep
      apply Meets.bind (nearestDistance_returns hk hcs (hdim v hv))
      intro nearest _
      dsimp only
      split_ifs
      · exact hi
      · exact hbest
    · intro best hbest
      apply Meets.mono (index_returns hbest) _ fun _ => id
      exact hdim
  · have hsum : c < b.sums.length := by rw [hb.sums_length]; exact hc
    rw [index_of_lt hsum, ok_bind]
    exact (List.length_map _).trans (hb.sums_dim _ (List.getElem_mem hsum))

/-- The update of one centroid keeps their shape. -/
theorem updateStep_returns (hk : 1 ≤ k) (hpos : 0 < ws.length) (hdim : ∀ v ∈ ws, v.length = dim)
    {b : LloydBuffers F32} {n : ℕ} (hb : b.WellFormed dim k n) {st : List (List F32) × F32}
    (hcs : Centroids dim k st.1) {c : ℕ} (hc : c < k) :
    Returns (updateStep ws b st c) fun st' => Centroids dim k st'.1 := by
  unfold updateStep
  apply Meets.bind (newCentroid_returns hk hpos hdim hb hcs hc)
  intro v hv
  have hlt : c < st.1.length := by rw [hcs.length_eq]; exact hc
  rw [index_of_lt hlt, ok_bind]
  apply Meets.bind (relativeShift_returns ((hcs.dims _ (List.getElem_mem hlt)).trans hv.symm))
  intro shift _
  rw [assign_of_lt v hlt]
  exact hcs.set c hv

/-- One pass keeps the shape of the centroids and of the buffers. -/
theorem lloydPass_returns (hk : 1 ≤ k) (hpos : 0 < ws.length) (hdim : ∀ v ∈ ws, v.length = dim)
    {b : LloydBuffers F32} (hb : b.WellFormed dim k ws.length) (hcs : Centroids dim k cs) :
    Returns (lloydPass ws cs b) fun r =>
      r.1.WellFormed dim k ws.length ∧ Centroids dim k r.2.1 := by
  unfold lloydPass
  -- The assignment pass, then the update pass over the buffers that it filled.
  refine Meets.bind (P := fun b => b.WellFormed dim k ws.length) ?_ ?_
  · apply Meets.foldlM_inv (fun b : LloydBuffers F32 => b.WellFormed dim k ws.length) hb.reset
    intro ⟨v, i⟩ hvi b' hb'
    obtain ⟨hi, hv⟩ := mem_zipIdx_bounds hvi
    exact assignmentStep_returns hk hcs hb' (hdim v hv) hi
  · intro b' hb'
    refine Meets.bind (P := fun st => Centroids dim k st.1) ?_ fun st hst => ⟨hb', hst⟩
    apply Meets.foldlM_inv (fun st : List (List F32) × F32 => Centroids dim k st.1) hcs
    intro c hc st hst
    have hck : c < k := by rw [← hcs.length_eq]; exact List.mem_range.1 hc
    exact updateStep_returns hk hpos hdim hb' hst hck

/-- The passes keep the shape of the centroids. -/
theorem lloydLoop_returns (hk : 1 ≤ k) (hpos : 0 < ws.length) (hdim : ∀ v ∈ ws, v.length = dim)
    (iters : ℕ) {b : LloydBuffers F32} (hb : b.WellFormed dim k ws.length)
    (hcs : Centroids dim k cs) : Returns (lloydLoop ws iters cs b) (Centroids dim k) := by
  induction iters generalizing cs b with
  | zero => exact hcs
  | succ iters ih =>
    rw [lloydLoop]
    apply Meets.bind (lloydPass_returns hk hpos hdim hb hcs)
    intro ⟨b', cs', shift⟩ ⟨hb', hcs'⟩
    dsimp only at hb' hcs' ⊢
    split_ifs
    · exact hcs'
    · exact ih hb' hcs'

end Pass

/-! ## Training -/

omit [Arith F32] in
/-- The pre-checks accept exactly the non-empty samples of the dimension that have a vector for
each cluster. -/
theorem trainPrechecks_eq_ok {dim n_clusters : ℕ} {sample : List (List F32)} :
    trainPrechecks dim n_clusters sample = .ok () ↔
      sample ≠ [] ∧ (∀ v ∈ sample, v.length = dim) ∧ n_clusters ≤ sample.length := by
  unfold trainPrechecks
  by_cases hne : sample = []
  · simp [hne]
  cases hfind : sample.find? fun v => v.length != dim with
  | some v =>
    have hv := List.find?_some hfind
    have hmem := List.mem_of_find?_eq_some hfind
    simp only [List.isEmpty_iff, hne, if_false, reduceCtorEq, false_iff]
    rintro ⟨-, hdims, -⟩
    simp [hdims v hmem] at hv
  | none =>
    rw [List.find?_eq_none] at hfind
    have hdims : ∀ v ∈ sample, v.length = dim := fun v hv => by simpa using hfind v hv
    simp only [List.isEmpty_iff, hne, if_false, ne_eq, not_false_eq_true, true_and]
    rw [and_iff_right hdims]
    by_cases hlen : sample.length < n_clusters
    · simp [hlen]
    · simp [hlen, Nat.le_of_not_lt hlen]

/-- A sample that the pre-checks refuse is refused with their error. -/
theorem trainKmeans_of_precheck_error {dim n_clusters : ℕ} {seed : UInt64}
    {sample : List (List F32)} {cap : ℕ} {e : IqdbError}
    (h : trainPrechecks dim n_clusters sample = .error e) :
    trainKmeans dim n_clusters seed sample cap = .error (.err e) := by
  unfold trainKmeans
  rw [h]
  rfl

/-- A sample that the pre-checks accept is trained: the result is `n_clusters` centroids of the
dimension. -/
theorem trainKmeans_returns {dim n_clusters : ℕ} (hk : 1 ≤ n_clusters) (seed : UInt64)
    {sample : List (List F32)} (hn : sample.length < 2^64) {cap : ℕ} (hcap : 1 ≤ cap)
    (hpre : trainPrechecks dim n_clusters sample = .ok ()) :
    Returns (trainKmeans dim n_clusters seed sample cap) (Centroids dim n_clusters) := by
  obtain ⟨hne, hdims, -⟩ := trainPrechecks_eq_ok.1 hpre
  have hlen : 0 < sample.length := List.length_pos_iff.2 hne
  unfold trainKmeans
  rw [hpre]
  dsimp only [liftM_result, mapError_ok, ok_bind, liftM_checked]
  apply Meets.bind ((subsampleRefs_returns hn _ _).mapError _)
  intro ⟨ws, rng⟩ ⟨hwlen, hmem⟩
  dsimp only at hwlen hmem ⊢
  -- The cap is positive, so the working set has a vector; it may have fewer than `n_clusters`.
  have hpos : 0 < ws.length := by omega
  have hws : ∀ v ∈ ws, v.length = dim := fun v hv => hdims v (hmem v hv)
  apply Meets.bind ((kmeansPlusPlus_returns hk (by omega) hpos hws rng).mapError _)
  intro ⟨cs, rng'⟩ ⟨hcs, hcdims⟩
  dsimp only at hcs hcdims ⊢
  unfold lloyd
  rw [hcs]
  have hloop := lloydLoop_returns hk hpos hws maxIters
    (LloydBuffers.alloc_wellFormed n_clusters ws.length dim) ⟨hcs, hcdims⟩
  exact hloop.mapError _

end IqdbIvf
