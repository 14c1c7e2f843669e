import IqdbIvf.Spec.Lloyd
import IqdbIvf.Spec.Seeding

/-!
# Training on rotated vectors

Over exact arithmetic the training reads its vectors through their distances and their means only.
So after a rotation of the sample every comparison and every draw is the same, and the centroids
that come out are the rotated ones (`trainKmeans_rotate`). The coordinate sums of a pass are rotated
too, because a rotation is linear.
-/

set_option linter.unusedSectionVars false

namespace IqdbIvf

open Outcome KMeans

/-! ## Reading images -/

section Images

variable {α β : Type} (f : α → β)

/-- Indexing a list of images. -/
theorem index_map (xs : List α) (i : ℕ) : index (xs.map f) i = (index xs i).map f := by
  unfold index
  rw [List.getElem?_map]
  cases xs[i]? with
  | none => rfl
  | some x => rfl

/-- Assigning an image to a list of images. -/
theorem assign_map (xs : List α) (i : ℕ) (x : α) :
    assign (xs.map f) i (f x) = (assign xs i x).map (List.map f) := by
  unfold assign
  rw [List.length_map]
  by_cases h : i < xs.length
  · rw [if_pos h, if_pos h, ← List.map_set]
    rfl
  · rw [if_neg h, if_neg h]
    rfl

/-- A subsample of images is the images of the subsample. -/
theorem subsampleRefs_map (sample : List α) (target_len : ℕ) (rng : SplitMix64) :
    subsampleRefs (sample.map f) target_len rng =
      (subsampleRefs sample target_len rng).map fun r => (r.1.map f, r.2) := by
  unfold subsampleRefs
  dsimp only
  rw [List.length_map]
  by_cases hwhole : min target_len sample.length = sample.length
  · rw [if_pos hwhole, if_pos hwhole]
    rfl
  · rw [if_neg hwhole, if_neg hwhole, image_bind]
    congr 1
    funext r
    rw [mapM_image (index_map f sample), bind_image, image_bind]
    rfl

end Images

section Training

variable {K : Type} [Field K] [LinearOrder K] [IsStrictOrderedRing K] [SquareRoot K]
  {dim k n : ℕ} {ws cs : List (List K)} {b : LloydBuffers K} (ρ : Rotation K)

/-! ## Distances -/

/-- The squared distance of two rotated vectors. -/
theorem squaredL2_rotate (v w : List K) : squaredL2 (ρ v) (ρ w) = squaredL2 v w := by
  by_cases h : v.length = w.length
  · have h' : (ρ v).length = (ρ w).length := by rw [ρ.length_eq, ρ.length_eq, h]
    rw [squaredL2_eq h, squaredL2_eq h', ρ.sqDist_eq v w h]
  · -- Vectors of different lengths fail the assertion, rotated or not.
    have hassert : (v.length == w.length) = false := by rwa [beq_eq_false_iff_ne]
    unfold squaredL2
    rw [ρ.length_eq, ρ.length_eq, hassert]
    rfl

/-- The nearest of the rotated centroids to a rotated vector. -/
theorem assignToCluster_rotate (cs : List (List K)) (v : List K) :
    assignToCluster (cs.map ρ) (ρ v) = assignToCluster cs v := by
  have hstep : ∀ (best : ℕ × K) (c : List K × ℕ),
      nearerStep (ρ v) best (Prod.map ρ id c) = nearerStep v best c := by
    intro best c
    unfold nearerStep
    rw [Prod.map_fst, Prod.map_snd, squaredL2_rotate]
    rfl
  unfold assignToCluster
  rw [List.isEmpty_map, index_map, bind_image, List.zipIdx_map, ← List.map_drop]
  simp only [squaredL2_rotate, List.foldlM_map, hstep]

/-- The number of the nearest centroid does not change. -/
theorem nearest_rotate (cs : List (List K)) (v : List K) :
    nearest (cs.map ρ) (ρ v) = nearest cs v := by
  unfold nearest
  rw [assignToCluster_rotate]

/-! ## Seeding -/

/-- The state of the seeding loop on rotated vectors. -/
def Seeding.rotate (st : Seeding K) : Seeding K := ⟨st.centroids.map ρ, st.min_sq, st.rng⟩

/-- Lowering the distance of a rotated point to its nearest seed. -/
theorem refreshStep_rotate (c : List K) (min_sq : List K) (p : List K × ℕ) :
    refreshStep (ρ c) min_sq (Prod.map ρ id p) = refreshStep c min_sq p := by
  unfold refreshStep
  rw [Prod.map_fst, Prod.map_snd, squaredL2_rotate]
  rfl

/-- A round of the seeding on rotated vectors draws the same number. -/
theorem seedStep_rotate (ws : List (List K)) (st : Seeding K) :
    seedStep (ws.map ρ) (st.rotate ρ) = (seedStep ws st).map (Seeding.rotate ρ) := by
  unfold seedStep
  rw [List.length_map, image_bind]
  congr 1
  funext r
  dsimp only [Seeding.rotate]
  rw [index_map, bind_image, image_bind]
  congr 1
  funext v
  have happend : st.centroids.map ρ ++ [ρ v] = (st.centroids ++ [v]).map ρ := by
    rw [List.map_append, List.map_singleton]
  rw [happend, List.length_map, image_bind]
  congr 1
  funext last
  rw [index_map, bind_image, image_bind]
  congr 1
  funext c
  rw [List.zipIdx_map, List.foldlM_map, image_bind]
  simp only [refreshStep_rotate]
  rfl

/-- The seeds of rotated vectors are the rotated seeds. -/
theorem kmeansPlusPlus_rotate (dim k : ℕ) (ws : List (List K)) (rng : SplitMix64) :
    kmeansPlusPlus dim k (ws.map ρ) rng =
      (kmeansPlusPlus dim k ws rng).map fun r => (r.1.map ρ, r.2) := by
  have hrounds : ∀ st : Seeding K,
      (List.range' 1 (k - 1)).foldlM (fun st _ => seedStep (ws.map ρ) st) (st.rotate ρ) =
        ((List.range' 1 (k - 1)).foldlM (fun st _ => seedStep ws st) st).map
          (Seeding.rotate ρ) := by
    intro st
    exact foldlM_image_of_forall (fun st _ => seedStep_rotate ρ ws st) _ st
  have hdims : ∀ cs : List (List K),
      (cs.map ρ).all (fun c => c.length == dim) = cs.all fun c => c.length == dim := by
    intro cs
    rw [List.all_map]
    simp only [Function.comp_def, ρ.length_eq]
  unfold kmeansPlusPlus
  dsimp only
  rw [List.length_map, image_bind]
  congr 1
  funext r
  rw [index_map, bind_image, image_bind]
  congr 1
  funext first
  rw [image_bind, List.mapM_map]
  simp only [Function.comp_def, squaredL2_rotate]
  congr 1
  funext min_sq
  have hstart : (⟨[ρ first], min_sq, r.2⟩ : Seeding K) = Seeding.rotate ρ ⟨[first], min_sq, r.2⟩ :=
    rfl
  rw [hstart, hrounds, bind_image, image_bind]
  congr 1
  funext st
  dsimp only [Seeding.rotate]
  rw [List.length_map, hdims, image_bind]
  congr 1
  funext _
  rw [image_bind]
  rfl

/-! ## Lloyd's passes -/

/-- The relative shift by distances: how far a centroid moves, over its distance from the origin or
one. -/
theorem relativeShift_eq {old new : List K} (h : old.length = new.length) :
    relativeShift old new = .ok (Arith.sqrt (sqDist old new) /
      Arith.max (Arith.sqrt (sqDist old (old.map fun _ => 0))) 1) := by
  have hzeros : old.length = (old.map fun _ => (0 : K)).length := (List.length_map _).symm
  have hdiff : (List.zipWith (fun x y => (x - y) * (x - y)) old new).length = old.length := by
    rw [List.length_zipWith, h, min_self]
  have hnorm : (List.zipWith (fun x y => (x - y) * (x - y)) old
      (old.map fun _ => (0 : K))).length = old.length := by
    rw [List.length_zipWith, ← hzeros, min_self]
  unfold relativeShift
  rw [debugAssert_of (by rw [beq_iff_eq]; exact h), ok_bind]
  -- After `i` rounds the accumulators are the sums of the first `i` squares.
  have hloop : Returns ((List.range old.length).foldlM (fun (acc : K × K) i => do
      let d := (← index old i) - (← index new i)
      return (acc.1 + d * d, acc.2 + (← index old i) * (← index old i))) ((0 : K), (0 : K)))
      fun acc => acc =
        (((List.zipWith (fun x y => (x - y) * (x - y)) old new).take old.length).sum,
          ((List.zipWith (fun x y => (x - y) * (x - y)) old
            (old.map fun _ => (0 : K))).take old.length).sum) := by
    apply Meets.foldlM_range fun i (acc : K × K) => acc =
        (((List.zipWith (fun x y => (x - y) * (x - y)) old new).take i).sum,
          ((List.zipWith (fun x y => (x - y) * (x - y)) old (old.map fun _ => (0 : K))).take i).sum)
    · rw [List.take_zero, List.take_zero, List.sum_nil]
    · rintro i hi acc rfl
      have hnew : i < new.length := h ▸ hi
      rw [index_of_lt hi, ok_bind, index_of_lt hnew, ok_bind,
        List.sum_take_succ _ _ (by omega), List.sum_take_succ _ _ (by omega),
        List.getElem_zipWith, List.getElem_zipWith, List.getElem_map, sub_zero]
      rfl
  rw [List.take_of_length_le hdiff.le, List.take_of_length_le hnorm.le] at hloop
  rw [hloop.eq_ok]
  rfl

/-- A rotated centroid moves as far. -/
theorem relativeShift_rotate (old new : List K) :
    relativeShift (ρ old) (ρ new) = relativeShift old new := by
  by_cases h : old.length = new.length
  · have h' : (ρ old).length = (ρ new).length := by rw [ρ.length_eq, ρ.length_eq, h]
    rw [relativeShift_eq h, relativeShift_eq h', ρ.sqDist_eq _ _ h, ← ρ.zeros,
      ρ.sqDist_eq _ _ (List.length_map _).symm]
  · have hassert : (old.length == new.length) = false := by rwa [beq_eq_false_iff_ne]
    unfold relativeShift
    rw [ρ.length_eq, ρ.length_eq, hassert]
    rfl

/-- The buffers of a pass over rotated points. -/
def LloydBuffers.rotate (b : LloydBuffers K) : LloydBuffers K :=
  { b with sums := b.sums.map ρ }

/-- The reset buffers hold the origin. -/
theorem LloydBuffers.reset_rotate (b : LloydBuffers K) :
    (b.rotate ρ).reset = b.reset.rotate ρ := by
  unfold LloydBuffers.reset LloydBuffers.rotate
  dsimp only
  rw [List.map_map, List.map_map]
  congr 1
  apply List.map_congr_left
  intro v _
  exact (ρ.zeros v).symm

/-- The distance of a rotated point to the nearest of the rotated centroids. -/
theorem nearestDistance_rotate (cs : List (List K)) (v : List K) :
    nearestDistance (cs.map ρ) (ρ v) = nearestDistance cs v := by
  unfold nearestDistance
  rw [index_map, bind_image, ← List.map_drop]
  simp only [squaredL2_rotate, List.foldlM_map]

/-- The new position of a rotated centroid. -/
theorem newCentroid_rotate (ws : List (List K)) (b : LloydBuffers K) (cs : List (List K)) (c : ℕ) :
    newCentroid (ws.map ρ) (b.rotate ρ) (cs.map ρ) c = (newCentroid ws b cs c).map ρ := by
  have hisolated : ∀ (best : ℕ × K) (p : List K × ℕ),
      isolatedStep (cs.map ρ) best (Prod.map ρ id p) = isolatedStep cs best p := by
    intro best p
    unfold isolatedStep
    rw [Prod.map_fst, Prod.map_snd, nearestDistance_rotate]
    rfl
  unfold newCentroid
  rw [image_bind]
  congr 1
  funext count
  by_cases hcount : count = 0
  · rw [if_pos hcount, if_pos hcount, List.zipIdx_map, List.foldlM_map, image_bind]
    simp only [hisolated, index_map]
  · rw [if_neg hcount, if_neg hcount]
    dsimp only [LloydBuffers.rotate]
    rw [index_map, bind_image, image_bind]
    congr 1
    funext s
    exact congrArg Except.ok (ρ.smul _ s).symm

/-- The update of a rotated centroid. -/
theorem updateStep_rotate (ws : List (List K)) (b : LloydBuffers K) (st : List (List K) × K)
    (c : ℕ) : updateStep (ws.map ρ) (b.rotate ρ) (st.1.map ρ, st.2) c =
      (updateStep ws b st c).map fun st' => (st'.1.map ρ, st'.2) := by
  unfold updateStep
  dsimp only
  rw [newCentroid_rotate, bind_image, image_bind]
  congr 1
  funext new_centroid
  rw [index_map, bind_image, image_bind]
  congr 1
  funext old
  rw [relativeShift_rotate, image_bind]
  congr 1
  funext shift
  rw [assign_map, bind_image, image_bind]
  rfl

/-- The assignment pass at one rotated point adds it to its cluster. -/
theorem assignmentStep_rotate (cs : List (List K)) (hb : b.WellFormed dim k n) {p : List K × ℕ}
    (hp : p.1.length = dim) : assignmentStep (cs.map ρ) (b.rotate ρ) (Prod.map ρ id p) =
      (assignmentStep cs b p).map (LloydBuffers.rotate ρ) := by
  unfold assignmentStep
  dsimp only [LloydBuffers.rotate, Prod.map_fst, Prod.map_snd, id]
  rw [assignToCluster_rotate, image_bind]
  congr 1
  funext c
  rw [image_bind]
  congr 1
  funext assignments
  rw [index_map, bind_image, image_bind]
  have hsum : Meets (index b.sums c) (fun s => s.length = dim) fun _ => True := by
    unfold index
    cases hs : b.sums[c]? with
    | none => trivial
    | some s => exact hb.sums_dim s (List.mem_of_getElem? hs)
  apply bind_congr_of_meets hsum
  intro (s : List K) hs
  -- The coordinates are added one after the other, and a rotation is additive.
  have hlen : s.length = p.1.length := hs.trans hp.symm
  have hlen' : (ρ s).length = (ρ p.1).length := by rw [ρ.length_eq, ρ.length_eq, hlen]
  have hadd := addCoordinates_eq [] s p.1 hlen
  have hadd' := addCoordinates_eq [] (ρ s) (ρ p.1) hlen'
  rw [List.length_nil, List.nil_append, List.nil_append] at hadd hadd'
  rw [hadd, hadd', ok_bind, ok_bind, ← ρ.add s p.1 hlen, assign_map, bind_image, image_bind]
  congr 1
  funext sums
  rw [image_bind]
  congr 1
  funext count
  rw [image_bind]
  rfl

/-- A pass over rotated points. -/
theorem lloydPass_rotate (hk : 1 ≤ k) (hws : ∀ v ∈ ws, v.length = dim)
    (hcs : Centroids dim k cs) (hb : b.WellFormed dim k ws.length) :
    lloydPass (ws.map ρ) (cs.map ρ) (b.rotate ρ) =
      (lloydPass ws cs b).map fun r => (r.1.rotate ρ, r.2.1.map ρ, r.2.2) := by
  unfold lloydPass
  rw [LloydBuffers.reset_rotate, List.zipIdx_map, List.foldlM_map, List.length_map]
  have hassign : ws.zipIdx.foldlM (fun b p => assignmentStep (cs.map ρ) b (Prod.map ρ id p))
      (b.reset.rotate ρ) =
        (ws.zipIdx.foldlM (assignmentStep cs) b.reset).map (LloydBuffers.rotate ρ) := by
    apply foldlM_image (LloydBuffers.WellFormed dim k ws.length)
    · intro p hp b' hb'
      obtain ⟨hi, hmem⟩ := mem_zipIdx_bounds hp
      exact (assignmentStep_returns hk hcs hb' (hws _ hmem) hi).mono (fun _ => id)
        fun _ _ => trivial
    · intro p hp b' hb'
      exact assignmentStep_rotate ρ cs hb' (hws _ (mem_zipIdx_bounds hp).2)
    · exact hb.reset
  rw [hassign, bind_image, image_bind]
  congr 1
  funext b'
  have hupdate := foldlM_image_of_forall (g := fun st : List (List K) × K => (st.1.map ρ, st.2))
    (updateStep_rotate ρ ws b') (List.range cs.length) (cs, 0)
  rw [hupdate, bind_image, image_bind]
  rfl

/-- The passes over rotated points. -/
theorem lloydLoop_rotate (hk : 1 ≤ k) (hpos : 0 < ws.length) (hws : ∀ v ∈ ws, v.length = dim)
    (iters : ℕ) (hcs : Centroids dim k cs) (hb : b.WellFormed dim k ws.length) :
    lloydLoop (ws.map ρ) iters (cs.map ρ) (b.rotate ρ) =
      (lloydLoop ws iters cs b).map (List.map ρ) := by
  induction iters generalizing cs b with
  | zero => rfl
  | succ iters ih =>
    rw [lloydLoop, lloydLoop, lloydPass_rotate ρ hk hws hcs hb, bind_image, image_bind]
    apply bind_congr_of_meets (lloydPass_returns hk hpos hws hb hcs)
    rintro ⟨b', cs', shift⟩ ⟨hb', hcs'⟩
    dsimp only at hb' hcs' ⊢
    by_cases hshift : Arith.lt shift Arith.tenThousandth = true
    · rw [if_pos hshift, if_pos hshift]
      rfl
    · rw [if_neg hshift, if_neg hshift]
      exact ih hcs' hb'

/-- The allocated buffers hold the origin. -/
theorem LloydBuffers.alloc_rotate (k n dim : ℕ) :
    LloydBuffers.rotate ρ (.alloc k n dim) = .alloc k n dim := by
  have hzeros : ρ (List.replicate dim 0) = List.replicate dim 0 := by
    have horigin := ρ.zeros (List.replicate dim 0)
    rwa [List.map_const', List.map_const', ρ.length_eq, List.length_replicate] at horigin
  unfold LloydBuffers.rotate LloydBuffers.alloc
  dsimp only
  rw [List.map_replicate]
  exact congrArg (fun zeros => (⟨List.replicate k zeros, _, _⟩ : LloydBuffers K)) hzeros

/-- The checks of a training read the lengths only. -/
theorem trainPrechecks_rotate (dim k : ℕ) (sample : List (List K)) :
    trainPrechecks dim k (sample.map ρ) = trainPrechecks dim k sample := by
  unfold trainPrechecks
  rw [List.isEmpty_map, List.length_map, List.find?_map]
  simp only [Function.comp_def, ρ.length_eq]
  cases sample.find? fun v => v.length != dim with
  | none => rfl
  | some v =>
    rw [Option.map_some]
    simp only [ρ.length_eq]

/-- An assertion that lets the program go on holds. -/
theorem debugAssert_meets (p : Bool) : Meets (debugAssert p) (fun _ => p = true) fun _ => True := by
  cases p with
  | false => trivial
  | true => rfl

/-- An element that is read is in the list. -/
theorem index_meets {α : Type} (xs : List α) (i : ℕ) :
    Meets (index xs i) (· ∈ xs) fun _ => True := by
  unfold index
  cases h : xs[i]? with
  | none => trivial
  | some x => exact List.mem_of_getElem? h

/-- A subsample, if there is one, is part of the sample. -/
theorem subsampleRefs_meets {α : Type} (sample : List α) (target_len : ℕ) (rng : SplitMix64) :
    Meets (subsampleRefs sample target_len rng) (fun r => ∀ x ∈ r.1, x ∈ sample)
      fun _ => True := by
  unfold subsampleRefs
  dsimp only
  by_cases hwhole : min target_len sample.length = sample.length
  · rw [if_pos hwhole]
    exact fun _ => id
  · rw [if_neg hwhole]
    apply (meets_trivial _).bind
    intro r _
    apply (Meets.mapM fun i _ => index_meets sample i).bind
    intro chosen hchosen x hx
    obtain ⟨i, hi, rfl⟩ := List.getElem_of_mem hx
    exact (List.forall₂_iff_get.1 hchosen).2 i (hchosen.length_eq ▸ hi) hi

/-- The seeds, if there are any, have the shape of centroids, and there is a point. -/
theorem kmeansPlusPlus_meets (dim k : ℕ) (ws : List (List K)) (rng : SplitMix64) :
    Meets (kmeansPlusPlus dim k ws rng) (fun r => 0 < ws.length ∧ Centroids dim k r.1)
      fun _ => True := by
  unfold kmeansPlusPlus
  dsimp only
  apply (meets_trivial _).bind
  intro r _
  apply (index_meets ws _).bind
  intro first hfirst
  apply (meets_trivial _).bind
  intro min_sq _
  apply (meets_trivial _).bind
  intro st _
  apply (debugAssert_meets _).bind
  intro _ hlen
  apply (debugAssert_meets _).bind
  intro _ hdims
  refine ⟨List.length_pos_of_mem hfirst, beq_iff_eq.1 hlen, fun c hc => ?_⟩
  exact beq_iff_eq.1 (List.all_eq_true.1 hdims c hc)

/-- Training on rotated vectors gives the rotated centroids. -/
theorem trainKmeans_rotate (hk : 1 ≤ k) (sample : List (List K)) (cap : ℕ) (seed : UInt64) :
    trainKmeans dim k seed (sample.map ρ) cap =
      (trainKmeans dim k seed sample cap).map (List.map ρ) := by
  have hpre := trainPrechecks_rotate ρ dim k sample
  cases h : trainPrechecks dim k sample with
  | error e =>
    rw [h] at hpre
    rw [trainKmeans_of_precheck_error h, trainKmeans_of_precheck_error hpre]
    rfl
  | ok u =>
    rw [h] at hpre
    obtain ⟨-, hdims, -⟩ := trainPrechecks_eq_ok.1 h
    unfold trainKmeans
    dsimp only
    rw [hpre, h, List.length_map, subsampleRefs_map]
    dsimp only [liftM_result, mapError_ok, ok_bind, liftM_checked]
    rw [map_mapError, bind_image, image_bind]
    apply bind_congr_of_meets (E := fun _ => True) (subsampleRefs_meets sample _ _).mapError
    intro ⟨ws, rng⟩ hmem
    dsimp only at hmem ⊢
    have hws : ∀ v ∈ ws, v.length = dim := fun v hv => hdims v (hmem v hv)
    rw [kmeansPlusPlus_rotate, map_mapError, bind_image, image_bind]
    apply bind_congr_of_meets (E := fun _ => True) (kmeansPlusPlus_meets dim k ws rng).mapError
    intro ⟨cs, rng'⟩ ⟨hpos, hcs⟩
    dsimp only at hcs ⊢
    have hloop := lloydLoop_rotate ρ hk hpos hws maxIters hcs
      (LloydBuffers.alloc_wellFormed k ws.length dim)
    rw [LloydBuffers.alloc_rotate] at hloop
    unfold lloyd
    rw [List.length_map, List.length_map, hcs.length_eq, hloop, map_mapError]

end Training

end IqdbIvf
