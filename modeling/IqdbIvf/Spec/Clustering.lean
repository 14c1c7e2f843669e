import IqdbIvf.Spec.Abstraction
import IqdbIvf.Spec.Lloyd
import IqdbIvf.Spec.Retraining
import IqdbIvf.Spec.Seeding

/-!
# What a clustering is made of

Over exact arithmetic every centroid is a point of the working set or a mean of some of them, so the
centroids of an index never leave a convex region that holds all vectors it was given
(`centroids_stay_in_hull`). And when the working set has no more distinct vectors than there are
clusters, the seeds are all of them and the passes cannot move them apart: every vector becomes a
centroid, and two vectors share a cluster exactly when they are equal
(`retrain_separates_distinct_vectors`).
-/

set_option linter.unusedSectionVars false

namespace IqdbIvf

open Outcome KMeans Rational

variable {K : Type} [Field K] [LinearOrder K] [IsStrictOrderedRing K] [SquareRoot K]
  {dim k n c : ℕ} {ws cs : List (List K)} {P : List K → Prop} {b : LloydBuffers K}

/-! ## The stages of a training -/

/-- A training that returns centroids has drawn a working set from the sample and seeds from the
working set, and has moved the seeds. -/
theorem trainKmeans_stages (hk : 1 ≤ k) {sample : List (List K)} (hn : sample.length < 2^64)
    {cap : ℕ} (hcap : sample ≠ [] → 1 ≤ cap) {seed : UInt64}
    (h : trainKmeans dim k seed sample cap = .ok cs) :
    ∃ (ws : List (List K)) (rng : SplitMix64) (st : Seeding K),
      subsampleRefs sample (min cap sample.length) (.new seed) = .ok (ws, rng) ∧
      0 < ws.length ∧ (∀ v ∈ ws, v ∈ sample) ∧ (∀ v ∈ ws, v.length = dim) ∧
      kmeansPlusPlus dim k ws rng = .ok (st.centroids, st.rng) ∧ st.Spread ws ∧
      st.centroids.length = k ∧
      lloydLoop ws maxIters st.centroids (.alloc k ws.length dim) = .ok cs := by
  cases hpre : trainPrechecks dim k sample with
  | error e =>
    rw [trainKmeans_of_precheck_error hpre] at h
    cases h
  | ok u =>
    obtain ⟨hne, hdims, -⟩ := trainPrechecks_eq_ok.1 hpre
    have hlen : 0 < sample.length := List.length_pos_iff.2 hne
    have hone := hcap hne
    obtain ⟨⟨ws, rng⟩, hsub, hwlen, hmem⟩ := returns_iff.1
      (subsampleRefs_returns hn (min cap sample.length) (.new seed))
    dsimp only at hwlen hmem
    have hpos : 0 < ws.length := by omega
    have hws : ∀ v ∈ ws, v.length = dim := fun v hv => hdims v (hmem v hv)
    obtain ⟨st, hrounds, hst, hslen⟩ := returns_iff.1
      (seedRounds_spec hws (by omega) hpos rng (k - 1))
    rw [Nat.sub_add_cancel hk] at hslen
    have hseeds := kmeansPlusPlus_of_rounds hrounds hslen fun c hc => hws c (hst.subset c hc)
    refine ⟨ws, rng, st, hsub, hpos, hmem, hws, hseeds, hst, hslen, ?_⟩
    obtain ⟨last, hloop, -⟩ := returns_iff.1 (lloydLoop_returns hk hpos hws maxIters
      (LloydBuffers.alloc_wellFormed k ws.length dim)
      ⟨hslen, fun c hc => hws c (hst.subset c hc)⟩)
    have htrain : trainKmeans dim k seed sample cap = .ok last := by
      unfold trainKmeans lloyd
      dsimp only
      rw [hpre, hsub]
      dsimp only [liftM_result, mapError_ok, ok_bind, liftM_checked]
      rw [hseeds]
      dsimp only [mapError_ok, ok_bind]
      rw [hslen, hloop]
      rfl
    rw [htrain] at h
    obtain rfl := Except.ok.inj h
    exact hloop

/-! ## Hulls -/

/-- A centroid moves to a point, or to the mean of some of them. -/
theorem newCentroid_hull (hP : ClosedUnderMeans dim P) (hdims : ∀ v ∈ ws, v.length = dim)
    (hws : ∀ v ∈ ws, P v) {cls : List K → ℕ} (hsums : b.Sums dim k cls ws) (hc : c < k)
    {v : List K} (h : newCentroid ws b cs c = .ok v) : P v := by
  by_cases hne : (ws.filter fun v => cls v = c) = []
  · -- The most isolated point is a point.
    have hcount : b.counts[c]? = some 0 := by
      rw [hsums.counts c hc, hne]
      rfl
    unfold newCentroid at h
    rw [index_eq_ok hcount, ok_bind, if_pos rfl] at h
    obtain ⟨best, -, hbest⟩ := bind_eq_ok.1 h
    unfold index at hbest
    split at hbest
    · next x hx =>
      obtain rfl := Except.ok.inj hbest
      exact hws x (List.mem_of_getElem? hx)
    · cases hbest
  · rw [newCentroid_of_points hsums hc hne] at h
    obtain rfl := Except.ok.inj h
    exact hP _ hne (fun v hv => hdims v (List.mem_of_mem_filter hv))
      fun v hv => hws v (List.mem_of_mem_filter hv)

/-- A pass leaves the centroids in the hull of the points. -/
theorem lloydPass_hull (hP : ClosedUnderMeans dim P) (hk : 1 ≤ k) (hpos : 0 < ws.length)
    (hdims : ∀ v ∈ ws, v.length = dim) (hws : ∀ v ∈ ws, P v)
    (hb : b.WellFormed dim k ws.length) (hcs : Centroids dim k cs) (hcsP : ∀ c ∈ cs, P c) :
    Returns (lloydPass ws cs b) fun r => r.1.WellFormed dim k ws.length ∧
      Centroids dim k r.2.1 ∧ ∀ c ∈ r.2.1, P c := by
  unfold lloydPass
  apply Meets.bind (assignmentPass_sums hk hcs hdims hb)
  intro b' ⟨hb', hsums⟩
  rw [hcs.length_eq]
  refine Meets.bind (P := fun st : List (List K) × K => Centroids dim k st.1 ∧ ∀ c ∈ st.1, P c)
    ?_ fun st hst => ⟨hb', hst⟩
  -- Each round replaces one centroid.
  apply Meets.foldlM_range fun _ (st : List (List K) × K) => Centroids dim k st.1 ∧ ∀ c ∈ st.1, P c
  · exact ⟨hcs, hcsP⟩
  · intro i hi st ⟨hst, hstP⟩
    have hshape : Returns (updateStep ws b' st i) fun st' => Centroids dim k st'.1 :=
      updateStep_returns hk hpos hdims hb' hst hi
    refine (hshape.and (updateStep_spec hk hpos hdims hb' hst hi)).mono ?_ fun _ h => h.1
    rintro st' ⟨hst', v, hnew, heq⟩
    refine ⟨hst', fun c hc => ?_⟩
    rw [heq] at hc
    rcases List.mem_or_eq_of_mem_set hc with hc | rfl
    · exact hstP c hc
    · exact newCentroid_hull hP hdims hws hsums hi hnew

/-- The passes leave the centroids in the hull of the points. -/
theorem lloydLoop_hull (hP : ClosedUnderMeans dim P) (hk : 1 ≤ k) (hpos : 0 < ws.length)
    (hdims : ∀ v ∈ ws, v.length = dim) (hws : ∀ v ∈ ws, P v) (iters : ℕ)
    (hb : b.WellFormed dim k ws.length) (hcs : Centroids dim k cs) (hcsP : ∀ c ∈ cs, P c) :
    Returns (lloydLoop ws iters cs b) fun last => ∀ c ∈ last, P c := by
  induction iters generalizing cs b with
  | zero => exact hcsP
  | succ iters ih =>
    rw [lloydLoop]
    apply Meets.bind (lloydPass_hull hP hk hpos hdims hws hb hcs hcsP)
    rintro ⟨b', moved, shift⟩ ⟨hb', hmoved, hmovedP⟩
    dsimp only at hb' hmoved hmovedP ⊢
    split_ifs
    · exact hmovedP
    · exact ih hb' hmoved hmovedP

/-- The centroids of a training are in the hull of the sample. -/
theorem trainKmeans_hull (hP : ClosedUnderMeans dim P) (hk : 1 ≤ k) {sample : List (List K)}
    (hn : sample.length < 2^64) {cap : ℕ} (hcap : sample ≠ [] → 1 ≤ cap) {seed : UInt64}
    (hsample : ∀ v ∈ sample, P v) (h : trainKmeans dim k seed sample cap = .ok cs) :
    ∀ c ∈ cs, P c := by
  obtain ⟨ws, rng, st, -, hpos, hmem, hdims, -, hst, hlen, hloop⟩ := trainKmeans_stages hk hn hcap h
  have hws : ∀ v ∈ ws, P v := fun v hv => hsample v (hmem v hv)
  have hb : (LloydBuffers.alloc k ws.length dim : LloydBuffers K).WellFormed dim k ws.length :=
    LloydBuffers.alloc_wellFormed k ws.length dim
  exact (lloydLoop_hull hP hk hpos hdims hws maxIters hb
    ⟨hlen, fun c hc => hdims c (hst.subset c hc)⟩ fun c hc => hws c (hst.subset c hc)).of_ok hloop

/-! ## Few distinct vectors -/

/-- With no more distinct points than centroids, every point becomes a centroid. -/
theorem trainKmeans_of_few (hk : 1 ≤ k) {sample : List (List K)} (hn : sample.length < 2^64)
    {seed : UInt64} (hfew : sample.toFinset.card ≤ k)
    (h : trainKmeans dim k seed sample sample.length = .ok cs) : ∀ v ∈ sample, v ∈ cs := by
  obtain ⟨ws, rng, st, hsub, hpos, -, hdims, -, hst, hlen, hloop⟩ :=
    trainKmeans_stages hk hn (fun hne => List.length_pos_iff.2 hne) h
  rw [min_self, subsampleRefs_of_le _ le_rfl] at hsub
  obtain ⟨rfl, -⟩ := Prod.mk.inj (Except.ok.inj hsub)
  have hsdims : ∀ c ∈ st.centroids, c.length = dim := fun c hc => hdims c (hst.subset c hc)
  -- The seeds are distinct and as many as there can be, or all points are seeds.
  have hall : ∀ v ∈ sample, v ∈ st.centroids := by
    have hcard := hst.card_eq
    rw [hlen, min_eq_right hfew] at hcard
    have hsub : st.centroids.toFinset ⊆ sample.toFinset := by
      intro c hc
      exact List.mem_toFinset.2 (hst.subset c (List.mem_toFinset.1 hc))
    have heq := Finset.eq_of_subset_of_card_le hsub hcard.ge
    intro v hv
    rw [← List.mem_toFinset, heq]
    exact List.mem_toFinset.2 hv
  have hseeds : cost st.centroids sample = 0 := (cost_eq_zero_iff hst.ne_nil hsdims hdims).2 hall
  have hcs : Centroids dim k cs := (lloydLoop_returns hk hpos hdims maxIters
    (LloydBuffers.alloc_wellFormed k sample.length dim) ⟨hlen, hsdims⟩).of_ok hloop
  have hne : cs ≠ [] := by
    rw [← List.length_pos_iff, hcs.length_eq]
    exact hk
  obtain ⟨trace, last, -, hloop', hhead, hlast, hpairs⟩ := lloydTrace_spec hk hpos hdims maxIters
    (LloydBuffers.alloc_wellFormed k sample.length dim) ⟨hlen, hsdims⟩
  obtain rfl : last = cs := Except.ok.inj (hloop'.symm.trans hloop)
  -- The passes cannot raise the cost from zero.
  have hle := cost_last_le hhead hlast hpairs
  rw [hseeds] at hle
  have hnonneg : 0 ≤ cost last sample := List.sum_nonneg (by
    intro d hd
    obtain ⟨v, -, rfl⟩ := List.mem_map.1 hd
    exact nearestSq_nonneg hne v)
  exact (cost_eq_zero_iff hne hcs.dims hdims).1 (le_antisymm hle hnonneg)

section Runs

variable {X : Crates K} {s t : IvfIndex X}

/-- The vectors that a call brings along have the property. -/
def Op.Within (P : List K → Prop) : Op X → Prop
  | .train sample => ∀ v ∈ sample.1, P v
  | .insert _ v _ => P v
  | _ => True

/-- The centroids and the items of an index have the property. -/
structure Hulled (P : List K → Prop) (s : IvfIndex X) : Prop where
  centroids : ∀ c ∈ s.centroids, P c
  items : ∀ item ∈ s.items, P item.vector

/-- The items after a call were there before, or are the one that it brings along. -/
theorem Transition.items_within {op : Op X} {r : Except IqdbError Unit} (h : Transition s op r t)
    (hs : Inv s) (hop : op.Within P) (hitems : ∀ item ∈ s.items, P item.vector) :
    ∀ item ∈ t.items, P item.vector := by
  cases r with
  | error e =>
    by_cases hretrain : op = .retrain
    · subst hretrain
      cases htrained : s.trained with
      | false =>
        cases h with
        | retrainUntrained => exact hitems
        | retrainKmeansFails _ htrue => exact absurd (htrained.symm.trans htrue) Bool.false_ne_true
        | retrainPqFails _ _ htrue => exact absurd (htrained.symm.trans htrue) Bool.false_ne_true
        | retrainEncodeFails _ _ _ _ _ _ htrue =>
          exact absurd (htrained.symm.trans htrue) Bool.false_ne_true
      | true =>
        obtain ⟨m, -, htake⟩ := h.items_of_retrain_error hs htrained
        rw [htake]
        exact fun item hitem => hitems item (List.mem_of_mem_take hitem)
    · rw [h.items_of_error hretrain]
      exact hitems
  | ok u =>
    rw [h.items_of_ok hs]
    cases op with
    | insert id v m =>
      intro item hitem
      rcases List.mem_append.1 hitem with hitem | hitem
      · exact hitems item hitem
      · obtain rfl := List.mem_singleton.1 hitem
        exact hop
    | delete id => exact fun item hitem => hitems item (List.mem_of_mem_filter hitem)
    | train sample => exact hitems
    | setNProbes m => exact hitems
    | setPqRefineFactor factor => exact hitems
    | retrain => exact hitems

/-- The centroids of a retraining are in the hull of the items. -/
theorem Inv.recluster_hull (hs : Inv s) (hP : ClosedUnderMeans s.dim P)
    (hitems : ∀ item ∈ s.items, P item.vector) (h : s.recluster = .ok cs) : ∀ c ∈ cs, P c := by
  obtain ⟨-, -, hlen, hmem⟩ := hs.exists_subsample
  have hlt := hs.live_count_lt
  apply trainKmeans_hull hP hs.valid.one_le_n_clusters (by omega)
    (fun hne => List.length_pos_iff.2 hne) _ h
  intro v hv
  obtain ⟨e, he, rfl⟩ := List.mem_map.1 (hmem v hv)
  exact hitems e.item (List.mem_map_of_mem he)

/-- A call keeps the centroids and the items in the hull of what it brings along. -/
theorem Transition.hulled {op : Op X} {r : Except IqdbError Unit} (h : Transition s op r t)
    (hs : Inv s) (hP : ClosedUnderMeans s.dim P) (hop : op.Within P) (hh : Hulled P s) :
    Hulled P t := by
  refine ⟨?_, h.items_within hs hop hh.items⟩
  have hplaced : ∀ cs pq (es : List (InvertedListEntry X)),
      ((s.drained cs pq).placeAll es).centroids = cs := by
    intro cs pq es
    rw [IvfIndex.placeAll_eq]
    rfl
  have hsample : ∀ sample : Slice (List K), sample.1 ≠ [] → 1 ≤ s.cfg.training_sample_size :=
    fun _ _ => hs.valid.one_le_sample
  cases h with
  | trainPqFails sample cs e htrained hkmeans =>
    exact trainKmeans_hull hP hs.valid.one_le_n_clusters sample.2 (hsample sample) hop hkmeans
  | trained sample cs pq htrained hkmeans =>
    exact trainKmeans_hull hP hs.valid.one_le_n_clusters sample.2 (hsample sample) hop hkmeans
  | retrainPqFails cs e htrained hlive hkmeans => exact hs.recluster_hull hP hh.items hkmeans
  | retrainEncodeFails cs pq done rest entry e htrained hlive hkmeans =>
    rw [hplaced]
    exact hs.recluster_hull hP hh.items hkmeans
  | retrained cs pq htrained hlive hkmeans =>
    rw [hplaced]
    exact hs.recluster_hull hP hh.items hkmeans
  | _ => exact hh.centroids

/-- A run of calls keeps the centroids and the items in the hull. -/
theorem Transitions.hulled {ops : List (Op X)} {rs : List (Except IqdbError Unit)}
    (h : Transitions s ops rs t) (hP : ClosedUnderMeans s.dim P) (hops : ∀ op ∈ ops, op.Within P)
    (hh : Hulled P s) : Hulled P t := by
  induction h with
  | nil => exact hh
  | @cons s s' t op ops r rs hs htransition hrest ih =>
    obtain ⟨hop, hops⟩ := List.forall_mem_cons.1 hops
    have hdim := htransition.frame.dim
    rw [← hdim] at hP
    exact ih hP hops (htransition.hulled hs (hdim ▸ hP) hop hh)

/-- The centroids of an index never leave a convex region that holds the vectors it was given:
whatever calls were made, successful or failed, when every vector that was trained on or inserted
has a property that means keep, so has every centroid and every item. -/
theorem centroids_stay_in_hull {dim : ℕ} {metric : DistanceMetric} {cfg : IvfConfig}
    {s₀ : IvfIndex X} (hnew : IvfIndex.new X dim metric cfg = .ok s₀) {P : List K → Prop}
    (hP : ClosedUnderMeans dim P) {ops : List (Op X)} (hops : ∀ op ∈ ops, op.Within P)
    {rs : List (Except IqdbError Unit)} (hcalls : calls ops s₀ = .ok (rs, t)) :
    (∀ c ∈ t.centroids, P c) ∧ ∀ item ∈ t.items, P item.vector := by
  have hinv := Inv.new hnew
  obtain ⟨-, -, -, rfl⟩ := IvfIndex.new_eq_ok.1 hnew
  have hstart : Hulled P (IvfIndex.fresh X dim metric cfg) := by
    refine ⟨fun c hc => absurd hc List.not_mem_nil, fun item hitem => ?_⟩
    rw [items_fresh] at hitem
    exact absurd hitem List.not_mem_nil
  have hhulled := (transitions_of_calls hinv hcalls).hulled hP hops hstart
  exact ⟨hhulled.centroids, hhulled.items⟩

/-- A vector that is a centroid is the centroid of its cluster. -/
theorem Centroids.getElem?_nearest (h : Centroids dim k cs) (hk : 1 ≤ k) {v : List K}
    (hv : v ∈ cs) : cs[nearest cs v]? = some v := by
  have hdim := h.dims v hv
  obtain ⟨c, hc, hdist⟩ := (h.firstNearest hk hdim).at_index
  have hzero : nearestSq cs v = 0 :=
    (nearestSq_eq_zero_iff (List.ne_nil_of_mem hv) fun c hc => (h.dims c hc).trans hdim.symm).2 hv
  have hcdim := (h.dims c (List.mem_of_getElem? hc)).trans hdim.symm
  rw [hzero, sqDist_eq_zero_iff hcdim] at hdist
  rw [hc, hdist]

/-- The working set of a retraining has no more distinct vectors than the index. -/
theorem Inv.card_sample_le (h : Inv s) :
    s.sample.toFinset.card ≤ (s.items.map (·.vector)).toFinset.card := by
  obtain ⟨-, -, -, hmem⟩ := h.exists_subsample
  apply Finset.card_le_card
  intro v hv
  rw [List.mem_toFinset, s.items_vectors]
  exact hmem v (List.mem_toFinset.1 hv)

/-- With no more distinct live vectors than clusters, the centroids of a retraining are those of its
working set, and perhaps others. -/
theorem Inv.recluster_of_few (h : Inv s)
    (hfew : (s.items.map (·.vector)).toFinset.card ≤ s.cfg.n_clusters)
    (hok : s.recluster = .ok cs) : ∀ v ∈ s.sample, v ∈ cs := by
  have hlt : s.sample.length < 2^64 := by
    have hlen := h.length_sample
    have hlive := h.live_count_lt
    omega
  exact trainKmeans_of_few h.valid.one_le_n_clusters hlt (h.card_sample_le.trans hfew) hok

/-- A retraining separates distinct vectors when it can: with no more distinct live vectors than
clusters, and a working set that holds all of them, every live vector is the centroid of its cluster
afterwards, so that two of them share a cluster exactly when they are equal. -/
theorem retrain_separates_distinct_vectors (hs : Reachable s)
    (hfew : (s.items.map (·.vector)).toFinset.card ≤ s.cfg.n_clusters)
    (hsample : ∀ item ∈ s.items, item.vector ∈ s.sample)
    (hcall : call (X := X) .retrain s = .ok (.ok (), t)) :
    (∀ c e, Buckets.Holds t.inverted_lists c e → t.centroids[c]? = some e.vector) ∧
      ∀ c e c' e', Buckets.Holds t.inverted_lists c e → Buckets.Holds t.inverted_lists c' e' →
        (c = c' ↔ e.vector = e'.vector) := by
  have h := hs.inv
  have htransition := transition_of_call h hcall
  have ht := htransition.inv h
  have hitems : t.items = s.items := htransition.items_of_ok h
  have hcentroid : ∀ c e, Buckets.Holds t.inverted_lists c e →
      t.centroids[c]? = some e.vector := by
    intro c e he
    have hitem : e.item ∈ s.items := by
      rw [← hitems]
      exact List.mem_map_of_mem (t.live_perm.mem_iff.2 (Buckets.mem_flatten_iff.2 ⟨c, he⟩))
    cases htransition with
    | retrainEmpty _ hlive =>
      rw [h.live_count_eq_zero_iff.1 hlive] at hitem
      exact absurd hitem List.not_mem_nil
    | retrained cs pq htrained hlive hkmeans hpq hcode =>
      have hcs := h.centroids_of_recluster hkmeans
      have hmem : e.vector ∈ cs := h.recluster_of_few hfew hkmeans _ (hsample e.item hitem)
      have hmodel : ((s.drained cs pq).placeAll s.live).centroids = cs := by
        rw [IvfIndex.placeAll_eq]
        rfl
      rw [← ht.nearest_of_holds he, hmodel]
      exact hcs.getElem?_nearest h.valid.one_le_n_clusters hmem
  refine ⟨hcentroid, fun c e c' e' he he' => ⟨?_, fun hvec => ?_⟩⟩
  · rintro rfl
    exact Option.some.inj ((hcentroid c e he).symm.trans (hcentroid c e' he'))
  · rw [← ht.nearest_of_holds he, ← ht.nearest_of_holds he', hvec]

end Runs

/-- The vectors of the two-cluster index lie between `0` and `10`, and so do its centroids. -/
theorem flatState_centroids_in_hull :
    (∀ c ∈ flatState.centroids, Box 1 (fun _ => (0 : ℚ)) (fun _ => 10) c) ∧
      ∀ item ∈ flatState.items, Box 1 (fun _ => (0 : ℚ)) (fun _ => 10) item.vector := by
  have hcalls := (Inv.new flatIndex_new).calls_results [.train twoVectors, .insert 3 [1] none,
    .insert 4 [9] (some 5), .delete 3, .insert 3 [2] (some 5)]
  have hbox : ∀ x : ℚ, 0 ≤ x → x ≤ 10 → Box 1 (fun _ => (0 : ℚ)) (fun _ => 10) [x] := by
    intro x hlo hhi j hj
    obtain rfl : j = 0 := by omega
    exact ⟨hlo, hhi⟩
  refine centroids_stay_in_hull flatIndex_new (closedUnderMeans_box 1 _ _) ?_ hcalls
  simp only [List.forall_mem_cons]
  refine ⟨fun v hv => ?_, hbox 1 (by decide) (by decide), hbox 9 (by decide) (by decide), trivial,
    hbox 2 (by decide) (by decide), nofun⟩
  rcases List.mem_pair.1 hv with rfl | rfl
  · exact hbox 0 (by decide) (by decide)
  · exact hbox 10 (by decide) (by decide)

/-- The two-cluster index, with one of its vectors stored twice. -/
def twiceState : IvfIndex crates := flatTrained.after [.insert 3 [1] none, .insert 4 [1] none]

/-- A retraining of it puts the equal vectors in one cluster, around themselves. -/
theorem twiceState_separated :
    ∃ t, call (X := crates) .retrain twiceState = .ok (.ok (), t) ∧
      (∀ c e, Buckets.Holds t.inverted_lists c e → t.centroids[c]? = some e.vector) ∧
        ∀ c e c' e', Buckets.Holds t.inverted_lists c e → Buckets.Holds t.inverted_lists c' e' →
          (c = c' ↔ e.vector = e'.vector) := by
  have hreach : Reachable twiceState := ((Reachable.new flatIndex_new).after _).after _
  obtain ⟨r, hcall⟩ := hreach.inv.call_after .retrain
  have hok : (call (X := crates) .retrain twiceState).toOption.map Prod.fst = some (.ok ()) := by
    decide +kernel
  rw [hcall] at hok
  obtain rfl : r = .ok () := Option.some.inj hok
  exact ⟨_, hcall, retrain_separates_distinct_vectors hreach (by decide +kernel)
    (by decide +kernel) hcall⟩

end IqdbIvf
