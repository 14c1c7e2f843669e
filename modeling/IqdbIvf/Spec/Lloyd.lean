import IqdbIvf.Spec.Exact

/-!
# Lloyd's iterations do not raise the cost

After the assignment pass the buffers hold, for each cluster, the coordinate sums and the number of
its points, so the update pass moves every cluster with points to their mean. The clusters without
points are moved in the same loop, and the search for their new place reads centroids that are
partly moved already; but where they go does not matter, because no point was assigned to them.
-/

set_option linter.unusedSectionVars false

namespace IqdbIvf

open Outcome KMeans Rational

/-- The centroids before the first pass of `lloyd` and after every pass, in order. -/
def lloydTrace {F32 : Type} [Arith F32] (working_set : List (List F32)) :
    ℕ → List (List F32) → LloydBuffers F32 → Checked (List (List (List F32)))
  | 0, centroids, _ => return [centroids]
  | iters + 1, centroids, b => do
    let (b, moved, shift) ← lloydPass working_set centroids b
    if Arith.lt shift Arith.tenThousandth then return [centroids, moved]
    else return centroids :: (← lloydTrace working_set iters moved b)

section Passes

variable {K : Type} [Field K] [LinearOrder K] [IsStrictOrderedRing K] [SquareRoot K]
  {dim k n c : ℕ} {ws cs pts : List (List K)} {v : List K} {cls : List K → ℕ} {b : LloydBuffers K}

/-! ## The assignment pass -/

/-- The buffers hold the coordinate sums and the numbers of the points of each cluster. -/
structure LloydBuffers.Sums (dim k : ℕ) (cls : List K → ℕ) (pts : List (List K))
    (b : LloydBuffers K) : Prop where
  sums : ∀ c < k, b.sums[c]? = some (coordinateSum dim (pts.filter fun v => cls v = c))
  counts : ∀ c < k, b.counts[c]? = some (pts.filter fun v => cls v = c).length

/-- The reset buffers are those of no points. -/
theorem LloydBuffers.WellFormed.reset_sums (h : b.WellFormed dim k n) (cls : List K → ℕ) :
    b.reset.Sums dim k cls [] where
  sums c hc := by
    have hlt : c < b.sums.length := by rw [h.sums_length]; exact hc
    have hzero : b.sums[c].map (fun _ => (0 : Arith.F64 K)) = List.replicate dim 0 := by
      rw [List.map_const', h.sums_dim _ (List.getElem_mem hlt)]
    unfold LloydBuffers.reset
    dsimp only
    rw [List.getElem?_map, List.getElem?_eq_getElem hlt, Option.map_some, hzero]
    rfl
  counts c hc := by
    have hlt : c < b.counts.length := by rw [h.counts_length]; exact hc
    unfold LloydBuffers.reset
    dsimp only
    rw [List.getElem?_map, List.getElem?_eq_getElem hlt]
    rfl

/-- The coordinates of a point are added to a sum one after the other; `done` is the part of the sum
that they are added to already. -/
theorem addCoordinates_eq (done s v : List K) (h : s.length = v.length) :
    (v.zipIdx done.length).foldlM (fun (s : List (Arith.F64 K)) x => do
        assign s x.2 ((← index s x.2) + Arith.widen x.1)) (done ++ s) =
      .ok (done ++ List.zipWith (· + ·) s v) := by
  induction v generalizing done s with
  | nil =>
    obtain rfl := List.length_eq_zero_iff.1 h
    rfl
  | cons x v ih =>
    obtain ⟨y, s, rfl⟩ := List.exists_cons_of_length_eq_add_one h
    have hget : index (done ++ y :: s) done.length = .ok y := index_eq_ok (by simp)
    have hassign : assign (done ++ y :: s : List (Arith.F64 K)) done.length (y + Arith.widen x) =
        .ok (done ++ [y + x] ++ s) := by
      rw [assign_of_lt _ (by simp), List.set_append_right _ _ (le_refl _), Nat.sub_self]
      simp
      rfl
    have hrest := ih (done ++ [y + x]) s (Nat.succ.inj h)
    rw [List.length_append, List.length_singleton] at hrest
    rw [List.zipIdx_cons, List.foldlM_cons]
    dsimp only
    rw [hget, ok_bind, hassign, ok_bind, hrest, List.append_assoc]
    rfl

/-- The assignment pass at one point adds it to its cluster. -/
theorem assignmentStep_sums (hk : 1 ≤ k) (hcs : Centroids dim k cs) (hb : b.WellFormed dim k n)
    (hsums : b.Sums dim k (nearest cs) pts) (hdims : ∀ v ∈ pts, v.length = dim)
    (hv : v.length = dim) {i : ℕ} (hi : i < n) :
    Returns (assignmentStep cs b (v, i)) fun b' => b'.Sums dim k (nearest cs) (pts ++ [v]) := by
  obtain ⟨hnearest, hlt⟩ := hcs.nearest_spec hk hv
  have hin : i < b.assignments.length := by rw [hb.assignments_length]; exact hi
  have hsum : nearest cs v < b.sums.length := by rw [hb.sums_length]; exact hlt
  have hcount : nearest cs v < b.counts.length := by rw [hb.counts_length]; exact hlt
  have hpts : ∀ w ∈ pts.filter fun w => nearest cs w = nearest cs v, w.length = dim :=
    fun w hw => hdims w (List.mem_of_mem_filter hw)
  obtain ⟨hlen, -⟩ := coordinateSum_spec hpts
  have hadd := addCoordinates_eq [] _ v (hlen.trans hv.symm)
  rw [List.length_nil, List.nil_append, List.nil_append] at hadd
  unfold assignmentStep
  dsimp only
  rw [hnearest, ok_bind, assign_of_lt _ hin, ok_bind, index_eq_ok (hsums.sums _ hlt), ok_bind, hadd,
    ok_bind, assign_of_lt _ hsum, ok_bind, index_eq_ok (hsums.counts _ hlt), ok_bind,
    assign_of_lt _ hcount, ok_bind, pure_eq_ok, returns_ok]
  -- One cluster gets the point; the others are left alone.
  have hfilter : ∀ c, (pts ++ [v]).filter (fun w => nearest cs w = c) =
      if nearest cs v = c then pts.filter (fun w => nearest cs w = c) ++ [v]
      else pts.filter fun w => nearest cs w = c := by
    intro c
    rw [List.filter_append, List.filter_singleton]
    split_ifs with h <;> simp [h]
  constructor
  · intro c hc
    rw [List.getElem?_set, hfilter]
    by_cases h : nearest cs v = c
    · subst h
      rw [if_pos rfl, if_pos rfl, if_pos hsum, coordinateSum_append]
    · rw [if_neg h, if_neg h, hsums.sums c hc]
  · intro c hc
    rw [List.getElem?_set, hfilter]
    by_cases h : nearest cs v = c
    · subst h
      rw [if_pos rfl, if_pos rfl, if_pos hcount, List.length_append, List.length_singleton]
    · rw [if_neg h, if_neg h, hsums.counts c hc]

/-- The assignment pass leaves the sums and the numbers of the points of each cluster. -/
theorem assignmentPass_sums (hk : 1 ≤ k) (hcs : Centroids dim k cs)
    (hdims : ∀ v ∈ ws, v.length = dim) (hb : b.WellFormed dim k ws.length) :
    Returns (ws.zipIdx.foldlM (assignmentStep cs) b.reset) fun b' =>
      b'.WellFormed dim k ws.length ∧ b'.Sums dim k (nearest cs) ws := by
  apply Meets.foldlM_zipIdx fun pts (b : LloydBuffers K) =>
    b.WellFormed dim k ws.length ∧ b.Sums dim k (nearest cs) pts
  · exact ⟨hb.reset, hb.reset_sums _⟩
  · intro pre v post hws b' ⟨hwf, hsums⟩
    have hv : v.length = dim := hdims v (by simp [hws])
    have hpre : ∀ w ∈ pre, w.length = dim := fun w hw => hdims w (by simp [hws, hw])
    have hi : 0 + pre.length < ws.length := by
      rw [hws, List.length_append, List.length_cons]
      omega
    have hwf' : Returns (assignmentStep cs b' (v, 0 + pre.length)) fun b'' =>
        b''.WellFormed dim k ws.length := assignmentStep_returns hk hcs hwf hv hi
    exact (hwf'.and (assignmentStep_sums hk hcs hwf hsums hpre hv hi)).mono (fun _ => id)
      fun _ h => h.1

/-! ## The update pass -/

/-- A centroid with points moves to their mean. -/
theorem newCentroid_of_points (hsums : b.Sums dim k cls ws) (hc : c < k)
    (hne : (ws.filter fun v => cls v = c) ≠ []) (cs : List (List K)) :
    newCentroid ws b cs c = .ok (mean dim (ws.filter fun v => cls v = c)) := by
  have hcount : (ws.filter fun v => cls v = c).length ≠ 0 :=
    fun h => hne (List.length_eq_zero_iff.1 h)
  unfold newCentroid
  rw [index_eq_ok (hsums.counts c hc), ok_bind]
  dsimp only
  rw [if_neg hcount, index_eq_ok (hsums.sums c hc)]
  rfl

/-- The update of one centroid replaces it by its new position. -/
theorem updateStep_spec (hk : 1 ≤ k) (hpos : 0 < ws.length) (hdims : ∀ v ∈ ws, v.length = dim)
    (hb : b.WellFormed dim k n) {st : List (List K) × K} (hcs : Centroids dim k st.1) (hc : c < k) :
    Returns (updateStep ws b st c) fun st' =>
      ∃ v, newCentroid ws b st.1 c = .ok v ∧ st'.1 = st.1.set c v := by
  obtain ⟨v, hnew, hv⟩ := returns_iff.1 (newCentroid_returns hk hpos hdims hb hcs hc)
  have hlt : c < st.1.length := by rw [hcs.length_eq]; exact hc
  unfold updateStep
  rw [hnew, ok_bind, index_of_lt hlt, ok_bind]
  apply Meets.bind (relativeShift_returns ((hcs.dims _ (List.getElem_mem hlt)).trans hv.symm))
  intro shift _
  rw [assign_of_lt v hlt]
  exact ⟨v, rfl, rfl⟩

/-- After the update pass every centroid with points is at their mean. -/
theorem updatePass_means (hk : 1 ≤ k) (hpos : 0 < ws.length) (hdims : ∀ v ∈ ws, v.length = dim)
    (hb : b.WellFormed dim k n) (hsums : b.Sums dim k cls ws) (hcs : Centroids dim k cs) :
    Returns ((List.range cs.length).foldlM (updateStep ws b) (cs, 0)) fun st =>
      Centroids dim k st.1 ∧ ∀ c < k, (ws.filter fun v => cls v = c) ≠ [] →
        st.1[c]? = some (mean dim (ws.filter fun v => cls v = c)) := by
  rw [hcs.length_eq]
  -- After `i` rounds this holds for the first `i` clusters; the later moves do not touch them.
  apply Meets.foldlM_range fun i (st : List (List K) × K) => Centroids dim k st.1 ∧
    ∀ c < i, (ws.filter fun v => cls v = c) ≠ [] →
      st.1[c]? = some (mean dim (ws.filter fun v => cls v = c))
  · exact ⟨hcs, fun c hc => absurd hc (Nat.not_lt_zero c)⟩
  · intro i hi st ⟨hst, hmeans⟩
    have hshape : Returns (updateStep ws b st i) fun st' => Centroids dim k st'.1 :=
      updateStep_returns hk hpos hdims hb hst hi
    refine (hshape.and (updateStep_spec hk hpos hdims hb hst hi)).mono ?_ fun _ h => h.1
    rintro st' ⟨hst', v, hnew, heq⟩
    refine ⟨hst', fun c hc hne => ?_⟩
    rw [heq]
    rcases Nat.lt_succ_iff_lt_or_eq.1 hc with hlt | rfl
    · rw [List.getElem?_set_ne (Nat.ne_of_gt hlt), hmeans c hlt hne]
    · rw [newCentroid_of_points hsums hi hne] at hnew
      obtain rfl := Except.ok.inj hnew
      exact List.getElem?_set_self (by rw [hst.length_eq]; exact hi)

/-! ## The passes -/

/-- One pass does not raise the cost. -/
theorem lloydPass_cost_le (hk : 1 ≤ k) (hpos : 0 < ws.length) (hdims : ∀ v ∈ ws, v.length = dim)
    (hb : b.WellFormed dim k ws.length) (hcs : Centroids dim k cs) :
    Returns (lloydPass ws cs b) fun r => r.1.WellFormed dim k ws.length ∧
      Centroids dim k r.2.1 ∧ cost r.2.1 ws ≤ cost cs ws := by
  unfold lloydPass
  apply Meets.bind (assignmentPass_sums hk hcs hdims hb)
  intro b' ⟨hb', hsums⟩
  apply Meets.bind (updatePass_means hk hpos hdims hb' hsums hcs)
  intro st ⟨hst, hmeans⟩
  have hcls : ∀ v ∈ ws, ∃ c, cs[nearest cs v]? = some c ∧ sqDist c v = nearestSq cs v :=
    fun v hv => (hcs.firstNearest hk (hdims v hv)).at_index
  refine ⟨hb', hst, cost_le_of_means hcs.dims hdims hcls fun v hv => ?_⟩
  apply hmeans _ (hcs.nearest_spec hk (hdims v hv)).2
  exact List.ne_nil_of_mem (List.mem_filter.2 ⟨hv, decide_eq_true rfl⟩)

/-- The trace of the passes starts with the centroids given and ends with those returned, and the
cost does not rise along it. -/
theorem lloydTrace_spec (hk : 1 ≤ k) (hpos : 0 < ws.length) (hdims : ∀ v ∈ ws, v.length = dim)
    (iters : ℕ) (hb : b.WellFormed dim k ws.length) (hcs : Centroids dim k cs) :
    ∃ trace last, lloydTrace ws iters cs b = .ok trace ∧ lloydLoop ws iters cs b = .ok last ∧
      trace.head? = some cs ∧ trace.getLast? = some last ∧
      trace.Pairwise fun before after => cost after ws ≤ cost before ws := by
  induction iters generalizing cs b with
  | zero => exact ⟨[cs], cs, rfl, rfl, rfl, rfl, List.pairwise_singleton _ _⟩
  | succ iters ih =>
    obtain ⟨⟨b', moved, shift⟩, hpass, hb', hmoved, hle⟩ :=
      returns_iff.1 (lloydPass_cost_le hk hpos hdims hb hcs)
    dsimp only at hb' hmoved hle
    rw [lloydTrace, lloydLoop, hpass, ok_bind, ok_bind]
    dsimp only
    by_cases hstop : Arith.lt shift Arith.tenThousandth = true
    · rw [if_pos hstop, if_pos hstop]
      exact ⟨[cs, moved], moved, rfl, rfl, rfl, rfl, List.pairwise_pair.2 hle⟩
    · rw [if_neg hstop, if_neg hstop]
      obtain ⟨trace, last, htrace, hloop, hhead, hlast, hpairs⟩ := ih hb' hmoved
      obtain ⟨rest, rfl⟩ := List.head?_eq_some_iff.1 hhead
      refine ⟨cs :: moved :: rest, last, by rw [htrace]; rfl, hloop, rfl, ?_, ?_⟩
      · rw [List.getLast?_cons_cons, hlast]
      · -- The later passes stay below the cost of this one.
        refine List.pairwise_cons.2 ⟨fun after hafter => ?_, hpairs⟩
        rcases List.mem_cons.1 hafter with rfl | hrest
        · exact hle
        · exact ((List.pairwise_cons.1 hpairs).1 after hrest).trans hle

/-- The last of a sequence of centroids along which the cost does not rise costs no more than the
first. -/
theorem cost_last_le {trace : List (List (List K))} {first last : List (List K)}
    (hhead : trace.head? = some first) (hlast : trace.getLast? = some last)
    (hpairs : trace.Pairwise fun before after => cost after ws ≤ cost before ws) :
    cost last ws ≤ cost first ws := by
  obtain ⟨rest, rfl⟩ := List.head?_eq_some_iff.1 hhead
  rcases List.mem_cons.1 (List.mem_of_getLast? hlast) with rfl | hrest
  · exact le_refl _
  · exact (List.pairwise_cons.1 hpairs).1 last hrest

variable (K) in
/-- The cost does not rise from pass to pass, wherever the passes stop, and so the centroids that
`train_kmeans` returns cost no more than the seeds that they start from. -/
theorem lloyd_never_raises_cost (dim : ℕ) :
    (∀ ws cs : List (List K), ws ≠ [] → (∀ v ∈ ws, v.length = dim) → cs ≠ [] →
      (∀ c ∈ cs, c.length = dim) → ∀ iters, ∃ trace last,
        lloydTrace ws iters cs (.alloc cs.length ws.length dim) = .ok trace ∧
        lloydLoop ws iters cs (.alloc cs.length ws.length dim) = .ok last ∧
        trace.head? = some cs ∧ trace.getLast? = some last ∧
        trace.Pairwise fun before after => cost after ws ≤ cost before ws) ∧
    ∀ (n_clusters : ℕ) (seed : UInt64) (sample : Slice (List K)) (training_sample_size : ℕ),
      1 ≤ n_clusters → 1 ≤ training_sample_size →
      trainPrechecks dim n_clusters sample.1 = .ok () →
      ∃ ws rng seeds rng' cs,
        subsampleRefs sample.1 (min training_sample_size sample.1.length) (.new seed) =
          .ok (ws, rng) ∧
        kmeansPlusPlus dim n_clusters ws rng = .ok (seeds, rng') ∧
        trainKmeans dim n_clusters seed sample.1 training_sample_size = .ok cs ∧
        cost cs ws ≤ cost seeds ws := by
  constructor
  · intro ws cs hws hdims hne hcdims iters
    exact lloydTrace_spec (List.length_pos_iff.2 hne) (List.length_pos_iff.2 hws) hdims iters
      (LloydBuffers.alloc_wellFormed _ _ _) ⟨rfl, hcdims⟩
  · intro n_clusters seed sample cap hk hcap hpre
    obtain ⟨hne, hdims, -⟩ := trainPrechecks_eq_ok.1 hpre
    have hlen : 0 < sample.1.length := List.length_pos_iff.2 hne
    obtain ⟨⟨ws, rng⟩, hsub, hwlen, hmem⟩ := returns_iff.1
      (subsampleRefs_returns sample.2 (min cap sample.1.length) (.new seed))
    dsimp only at hwlen hmem
    have hpos : 0 < ws.length := by omega
    have hws : ∀ v ∈ ws, v.length = dim := fun v hv => hdims v (hmem v hv)
    have hn : ws.length < 2^64 := by
      have := sample.2
      omega
    obtain ⟨⟨seeds, rng'⟩, hseeds, hslen, hsdims⟩ := returns_iff.1
      (kmeansPlusPlus_returns hk hn hpos hws rng)
    dsimp only at hslen hsdims
    obtain ⟨trace, last, -, hloop, hhead, hlast, hpairs⟩ := lloydTrace_spec hk hpos hws maxIters
      (LloydBuffers.alloc_wellFormed n_clusters ws.length dim) ⟨hslen, hsdims⟩
    refine ⟨ws, rng, seeds, rng', last, hsub, hseeds, ?_, cost_last_le hhead hlast hpairs⟩
    unfold trainKmeans lloyd
    dsimp only
    rw [hpre, hsub]
    dsimp only [liftM_result, mapError_ok, ok_bind, liftM_checked]
    rw [hseeds]
    dsimp only [mapError_ok, ok_bind]
    rw [hslen, hloop]
    rfl

end Passes

/-- Three points and three centroids, one of them without points, and the training of two
clusters. -/
theorem rational_lloyd_never_raises_cost :
    (∃ trace last,
      lloydTrace [[0], [4], [10]] 25 [[(0 : ℚ)], [0], [20]] (.alloc 3 3 1) = .ok trace ∧
      lloydLoop [[0], [4], [10]] 25 [[(0 : ℚ)], [0], [20]] (.alloc 3 3 1) = .ok last ∧
      trace.head? = some [[0], [0], [20]] ∧ trace.getLast? = some last ∧
      trace.Pairwise fun before after =>
        cost after [[0], [4], [10]] ≤ cost before [[0], [4], [10]]) ∧
    ∃ ws rng seeds rng' cs,
      subsampleRefs twoVectors.1 2 (.new 7) = .ok (ws, rng) ∧
      kmeansPlusPlus 1 2 ws rng = .ok (seeds, rng') ∧
      trainKmeans 1 2 7 twoVectors.1 2 = .ok cs ∧ cost cs ws ≤ cost seeds ws := by
  have hspec := lloyd_never_raises_cost ℚ 1
  constructor
  · exact hspec.1 [[0], [4], [10]] [[0], [0], [20]] (by decide) (by decide) (by decide) (by decide)
      25
  · exact hspec.2 2 7 twoVectors 2 (by decide) (by decide) (by decide)

end IqdbIvf
