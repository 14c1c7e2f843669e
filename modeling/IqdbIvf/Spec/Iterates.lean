import IqdbIvf.Lib.Iteration
import IqdbIvf.Spec.Clustering
import IqdbIvf.Spec.Rotation

/-!
# Training iterates Lloyd's step

`lloyd` fills buffers, scans for the nearest centroid and for the most isolated point, and moves its
centroids in place. Over exact arithmetic a pass of it is one `lloydStep` on the centroids, whatever
the buffers held before, and what it compares with its tolerance is the largest relative shift of
that step (`lloydPass_eq`). So `train_kmeans` returns an iterate of the step from the seeds, the
first one that moved by less than the tolerance or the last one that the number of passes allows
(`trainKmeans_iterates_lloydStep`).
-/

set_option linter.unusedSectionVars false

namespace IqdbIvf

open Outcome KMeans Rational

variable {K : Type} [Field K] [LinearOrder K] [IsStrictOrderedRing K] [SquareRoot K]
  {dim k n c : ℕ} {ws cs : List (List K)} {cls cls' : List K → ℕ} {b : LloydBuffers K}

/-! ## The most isolated point -/

/-- The scan for the distance to the nearest centroid finds it. -/
theorem nearestDistance_eq (hne : cs ≠ []) {v : List K} (hdims : ∀ c ∈ cs, c.length = v.length) :
    nearestDistance cs v = .ok (nearestSq cs v) := by
  obtain ⟨c₀, rest, rfl⟩ := List.exists_cons_of_ne_nil hne
  have hfirst : index (c₀ :: rest) 0 = .ok c₀ := index_eq_ok rfl
  unfold nearestDistance
  rw [hfirst, ok_bind, squaredL2_eq (hdims c₀ List.mem_cons_self), ok_bind, List.drop_one,
    List.tail_cons]
  apply Returns.eq_ok
  -- So far it is the distance to the nearest of the centroids already read.
  apply Meets.foldlM fun pre (d : K) => d = nearestSq (c₀ :: pre) v
  · exact (nearestSq_singleton c₀ v).symm
  · rintro pre c post hrest d rfl
    have hc : c ∈ c₀ :: rest := by simp [hrest]
    rw [squaredL2_eq (hdims c hc), ok_bind, pure_eq_ok, meets_ok, ← List.cons_append,
      nearestSq_append (List.cons_ne_nil c₀ pre)]
    by_cases hlt : sqDist c v < nearestSq (c₀ :: pre) v
    · rw [if_pos (exact_lt.2 hlt), min_eq_right hlt.le]
    · rw [if_neg (mt exact_lt.1 hlt), min_eq_left (not_lt.1 hlt)]

/-- The scan for the most isolated point finds the first of the farthest ones. -/
theorem isolatedStep_farthest (hne : cs ≠ []) (hpos : ws ≠ [])
    (hdims : ∀ v ∈ ws, ∀ c ∈ cs, c.length = v.length) :
    Returns (ws.zipIdx.foldlM (isolatedStep cs) (0, -1)) fun best =>
      ws[best.1]? = farthest cs ws := by
  -- The best so far is the farthest of the points already read, and there is none before the first.
  have hloop : Returns (ws.zipIdx.foldlM (isolatedStep cs) (0, -1)) fun best =>
      (ws = [] ∧ best.2 = -1) ∨ ∃ m, ws.argmax (nearestSq cs) = some m ∧ ws[best.1]? = some m ∧
        best.2 = nearestSq cs m := by
    apply Meets.foldlM_zipIdx fun pre (best : ℕ × K) =>
      (pre = [] ∧ best.2 = -1) ∨ ∃ m, pre.argmax (nearestSq cs) = some m ∧
        ws[best.1]? = some m ∧ best.2 = nearestSq cs m
    · exact .inl ⟨rfl, rfl⟩
    · intro pre v post hws best hbest
      have hv : v ∈ ws := by simp [hws]
      have hat : ws[0 + pre.length]? = some v := by
        rw [hws, Nat.zero_add, List.getElem?_append_right le_rfl, Nat.sub_self]
        rfl
      unfold isolatedStep
      rw [nearestDistance_eq hne (hdims v hv), ok_bind, pure_eq_ok, meets_ok, List.argmax_concat]
      right
      rcases hbest with ⟨rfl, hstart⟩ | ⟨m, hm, hatm, hdist⟩
      · have hlt : best.2 < nearestSq cs v := by
          rw [hstart]
          exact neg_one_lt_zero.trans_le (nearestSq_nonneg hne v)
        rw [if_pos (exact_lt.2 hlt)]
        exact ⟨v, rfl, hat, rfl⟩
      · rw [hm]
        dsimp only
        by_cases hlt : nearestSq cs m < nearestSq cs v
        · rw [if_pos (exact_lt.2 (hdist ▸ hlt)), if_pos hlt]
          exact ⟨v, rfl, hat, rfl⟩
        · rw [if_neg (mt exact_lt.1 (hdist ▸ hlt)), if_neg hlt]
          exact ⟨m, rfl, hatm, hdist⟩
  apply hloop.mono _ fun _ => id
  rintro best (⟨hnil, -⟩ | ⟨m, hm, hat, -⟩)
  · exact absurd hnil hpos
  · unfold farthest
    rw [hat, hm]

/-! ## Where a centroid moves -/

/-- The buffers hold the sums and the numbers for every numbering that agrees on the points. -/
theorem LloydBuffers.Sums.congr (h : b.Sums dim k cls ws) (hcls : ∀ v ∈ ws, cls v = cls' v) :
    b.Sums dim k cls' ws := by
  have hfilter : ∀ c, (ws.filter fun v => cls' v = c) = ws.filter fun v => cls v = c := by
    intro c
    apply List.filter_congr
    intro v hv
    rw [hcls v hv]
  constructor
  · intro c hc
    rw [hfilter, h.sums c hc]
  · intro c hc
    rw [hfilter, h.counts c hc]

/-- The new position of a centroid is where the step moves it. -/
theorem newCentroid_eq (hne : cs ≠ []) (hpos : ws ≠ [])
    (hdims : ∀ v ∈ ws, ∀ c ∈ cs, c.length = v.length) (hsums : b.Sums dim k cls ws) (hc : c < k) :
    newCentroid ws b cs c = .ok (moved dim ws cls cs c) := by
  unfold moved
  by_cases hmem : (ws.filter fun v => cls v = c) = []
  · have hcount : b.counts[c]? = some 0 := by
      rw [hsums.counts c hc, hmem]
      rfl
    obtain ⟨best, hscan, hbest⟩ := returns_iff.1 (isolatedStep_farthest hne hpos hdims)
    obtain ⟨m, hm⟩ : ∃ m, farthest cs ws = some m :=
      Option.ne_none_iff_exists'.1 fun hnone => hpos (List.argmax_eq_none.1 hnone)
    unfold newCentroid
    rw [index_eq_ok hcount, ok_bind, if_pos rfl, hscan, ok_bind, if_pos hmem, hm, Option.getD_some]
    exact index_eq_ok (hbest.trans hm)
  · rw [if_neg hmem, newCentroid_of_points hsums hc hmem]

/-- The shift of a centroid, relative to its distance from the origin. -/
def relShift (old new : List K) : K :=
  SquareRoot.root (sqDist old new) /
    max (SquareRoot.root (sqDist old (old.map fun _ => 0))) 1

/-- The update of one centroid moves it, and takes note of its shift. -/
theorem updateStep_eq (hk : 1 ≤ k) (hpos : 0 < ws.length) (hdims : ∀ v ∈ ws, v.length = dim)
    (hb : b.WellFormed dim k n) (hsums : b.Sums dim k cls ws) {st : List (List K) × K}
    (hcs : Centroids dim k st.1) (hc : c < k) (hlt : c < st.1.length) :
    updateStep ws b st c = .ok (st.1.set c (moved dim ws cls st.1 c),
      max st.2 (relShift st.1[c] (moved dim ws cls st.1 c))) := by
  have hne : st.1 ≠ [] := List.length_pos_iff.1 (Nat.zero_lt_of_lt hlt)
  have hnew := newCentroid_eq hne (List.length_pos_iff.1 hpos)
    (fun v hv c hc => (hcs.dims c hc).trans (hdims v hv).symm) hsums hc
  have hlen : (moved dim ws cls st.1 c).length = dim :=
    (newCentroid_returns hk hpos hdims hb hcs hc).of_ok hnew
  have hshift : relativeShift st.1[c] (moved dim ws cls st.1 c) =
      .ok (relShift st.1[c] (moved dim ws cls st.1 c)) :=
    relativeShift_eq ((hcs.dims _ (List.getElem_mem hlt)).trans hlen.symm)
  unfold updateStep
  rw [hnew, ok_bind, index_of_lt hlt, ok_bind, hshift, ok_bind]
  dsimp only
  rw [assign_of_lt _ hlt, ok_bind, pure_eq_ok]
  by_cases h : st.2 < relShift st.1[c] (moved dim ws cls st.1 c)
  · rw [if_pos (exact_lt.2 h), max_eq_right h.le]
  · rw [if_neg (mt exact_lt.1 h), max_eq_left (not_lt.1 h)]

/-! ## The passes -/

/-- The update pass moves all centroids, and takes note of the largest shift. -/
theorem updatePass_eq (hk : 1 ≤ k) (hpos : 0 < ws.length) (hdims : ∀ v ∈ ws, v.length = dim)
    (hb : b.WellFormed dim k n) (hsums : b.Sums dim k cls ws) (hcs : Centroids dim k cs) :
    (List.range cs.length).foldlM (updateStep ws b) (cs, 0) =
      .ok (movedUpTo dim ws cls cs cs.length,
        largestShift relShift cs (movedUpTo dim ws cls cs cs.length)) := by
  have hloop : Returns ((List.range cs.length).foldlM (updateStep ws b) (cs, 0)) fun st =>
      Centroids dim k st.1 ∧ st.1 = movedUpTo dim ws cls cs cs.length ∧
        st.2 = largestShift relShift (cs.take cs.length)
          ((movedUpTo dim ws cls cs cs.length).take cs.length) := by
    -- After `i` rounds the first `i` centroids are moved, and the largest of their shifts is known.
    apply Meets.foldlM_range fun i (st : List (List K) × K) =>
      Centroids dim k st.1 ∧ st.1 = movedUpTo dim ws cls cs i ∧
        st.2 = largestShift relShift (cs.take i) ((movedUpTo dim ws cls cs i).take i)
    · exact ⟨hcs, rfl, rfl⟩
    · intro i hi st ⟨hst, hmoved, hshift⟩
      have hik : i < k := hcs.length_eq ▸ hi
      have hlt : i < st.1.length := by rwa [hst.length_eq]
      have hsame : st.1[i] = cs[i] := by
        apply Option.some.inj
        rw [← List.getElem?_eq_getElem, ← List.getElem?_eq_getElem, hmoved,
          getElem?_movedUpTo le_rfl]
      have hlens : (cs.take i).length = ((movedUpTo dim ws cls cs i).take i).length := by
        rw [List.length_take, List.length_take, length_movedUpTo]
      have hshape := updateStep_returns hk hpos hdims hb hst hik
      rw [updateStep_eq hk hpos hdims hb hsums hst hik hlt] at hshape ⊢
      refine ⟨hshape, ?_, ?_⟩
      · show st.1.set i (moved dim ws cls st.1 i) = _
        rw [movedUpTo, hmoved]
      · show max st.2 (relShift st.1[i] (moved dim ws cls st.1 i)) = _
        rw [take_movedUpTo_succ hi, List.take_succ_eq_append_getElem hi,
          largestShift_concat _ hlens, hsame, hshift, hmoved]
  obtain ⟨⟨st, shift⟩, heq, -, hst, hshift⟩ := returns_iff.1 hloop
  dsimp only at hst hshift
  rw [heq, hst, hshift, List.take_length, List.take_of_length_le (length_movedUpTo _).le]

/-- A pass is one step, and the shift that it returns is the largest shift of the step. -/
theorem lloydPass_eq (hk : 1 ≤ k) (hpos : 0 < ws.length) (hdims : ∀ v ∈ ws, v.length = dim)
    (hb : b.WellFormed dim k ws.length) (hcs : Centroids dim k cs) :
    Returns (lloydPass ws cs b) fun r => r.1.WellFormed dim k ws.length ∧
      Centroids dim k r.2.1 ∧ r.2.1 = lloydStep dim ws cs ∧
      r.2.2 = largestShift relShift cs (lloydStep dim ws cs) := by
  have hstep : Returns (lloydPass ws cs b) fun r => r.2.1 = lloydStep dim ws cs ∧
      r.2.2 = largestShift relShift cs (lloydStep dim ws cs) := by
    unfold lloydPass
    apply Meets.bind (assignmentPass_sums hk hcs hdims hb)
    intro b' ⟨hb', hsums⟩
    have hnearest : ∀ v ∈ ws, nearest cs v = nearestIndex cs v :=
      fun v hv => (hcs.firstNearest hk (hdims v hv)).eq_nearestIndex
    rw [updatePass_eq hk hpos hdims hb' (hsums.congr hnearest) hcs]
    exact ⟨rfl, rfl⟩
  exact ((lloydPass_returns hk hpos hdims hb hcs).and hstep).mono
    (fun _ h => ⟨h.1.1, h.1.2, h.2⟩) fun _ h => h.1

/-- The test that ends the passes: no centroid was shifted by as much as the tolerance. -/
def settled (old new : List (List K)) : Bool :=
  Arith.lt (largestShift relShift old new) Arith.tenThousandth

/-- The passes repeat the step until it has settled. -/
theorem lloydLoop_eq (hk : 1 ≤ k) (hpos : 0 < ws.length) (hdims : ∀ v ∈ ws, v.length = dim)
    (iters : ℕ) (hb : b.WellFormed dim k ws.length) (hcs : Centroids dim k cs) :
    lloydLoop ws iters cs b = .ok (converge (lloydStep dim ws) settled iters cs) := by
  induction iters generalizing cs b with
  | zero => rfl
  | succ iters ih =>
    obtain ⟨⟨b', cs', shift⟩, hpass, hb', hcs', hstep, hshift⟩ :=
      returns_iff.1 (lloydPass_eq hk hpos hdims hb hcs)
    dsimp only at hb' hcs' hstep hshift
    rw [lloydLoop, hpass, ok_bind, converge, ← hstep]
    dsimp only
    have htest : Arith.lt shift Arith.tenThousandth = settled cs cs' := by
      rw [hshift, ← hstep]
      rfl
    rw [htest]
    by_cases hsettled : settled cs cs' = true
    · rw [if_pos hsettled, if_pos hsettled]
      rfl
    · rw [if_neg hsettled, if_neg hsettled]
      exact ih hb' hcs'

/-- A training that returns centroids has drawn a working set and seeds from it, and has iterated
the step from the seeds: in each pass but the last one some centroid was shifted by the tolerance or
more, and the last pass was the 25th or shifted all of them by less. -/
theorem trainKmeans_iterates_lloydStep (hk : 1 ≤ k) {sample : Slice (List K)} {cap : ℕ}
    (hcap : 1 ≤ cap) {seed : UInt64} (h : trainKmeans dim k seed sample.1 cap = .ok cs) :
    ∃ ws rng seeds rng', ∃ j : ℕ,
      subsampleRefs sample.1 (min cap sample.1.length) (.new seed) = .ok (ws, rng) ∧
      kmeansPlusPlus dim k ws rng = .ok (seeds, rng') ∧
      1 ≤ j ∧ j ≤ 25 ∧ cs = (lloydStep dim ws)^[j] seeds ∧
      (∀ i, i + 1 < j → 1 / 10000 ≤
        largestShift relShift ((lloydStep dim ws)^[i] seeds) ((lloydStep dim ws)^[i + 1] seeds)) ∧
      (j = 25 ∨
        largestShift relShift ((lloydStep dim ws)^[j - 1] seeds) ((lloydStep dim ws)^[j] seeds) <
          1 / 10000) := by
  obtain ⟨ws, rng, st, hsub, hpos, -, hdims, hseeds, hst, hlen, hloop⟩ :=
    trainKmeans_stages hk sample.2 (fun _ => hcap) h
  have hshape : Centroids dim k st.centroids := ⟨hlen, fun c hc => hdims c (hst.subset c hc)⟩
  rw [lloydLoop_eq hk hpos hdims maxIters (LloydBuffers.alloc_wellFormed k ws.length dim) hshape]
    at hloop
  obtain rfl := Except.ok.inj hloop
  obtain ⟨j, hj, heq, hgoes, hends⟩ :=
    converge_spec (lloydStep dim ws) settled maxIters st.centroids
  have hpassed : 1 ≤ j := by
    rcases hends with rfl | ⟨i, rfl, -⟩
    · exact Nat.le_of_ble_eq_true rfl
    · exact Nat.succ_pos i
  refine ⟨ws, rng, st.centroids, st.rng, j, hsub, hseeds, hpassed, hj, heq, fun i hi => ?_, ?_⟩
  · exact not_lt.1 fun hlt => Bool.false_ne_true ((hgoes i hi).symm.trans (exact_lt.2 hlt))
  · rcases hends with hall | ⟨i, rfl, hlast⟩
    · exact .inl hall
    · exact .inr (exact_lt.1 hlast)

/-- Three centroids of three vectors, two of which are equal. -/
theorem repeatedVectors_iterate_lloydStep :
    ∃ cs, trainKmeans 1 3 7 repeatedVectors.1 3 = .ok cs ∧
      ∃ ws rng seeds rng', ∃ j : ℕ,
        subsampleRefs repeatedVectors.1 (min 3 repeatedVectors.1.length) (.new 7) = .ok (ws, rng) ∧
        kmeansPlusPlus 1 3 ws rng = .ok (seeds, rng') ∧
        1 ≤ j ∧ j ≤ 25 ∧ cs = (lloydStep 1 ws)^[j] seeds ∧
        (∀ i, i + 1 < j → 1 / 10000 ≤
          largestShift relShift ((lloydStep 1 ws)^[i] seeds) ((lloydStep 1 ws)^[i + 1] seeds)) ∧
        (j = 25 ∨
          largestShift relShift ((lloydStep 1 ws)^[j - 1] seeds) ((lloydStep 1 ws)^[j] seeds) <
            1 / 10000) := by
  have hreturns : Returns (trainKmeans 1 3 7 repeatedVectors.1 3) (Centroids 1 3) :=
    trainKmeans_returns (by decide) 7 repeatedVectors.2 (by decide) (by decide)
  obtain ⟨cs, htrain, -⟩ := returns_iff.1 hreturns
  exact ⟨cs, htrain, trainKmeans_iterates_lloydStep (by decide) (by decide) htrain⟩

end IqdbIvf
