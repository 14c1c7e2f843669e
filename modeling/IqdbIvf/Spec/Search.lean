import IqdbIvf.Spec.PqScan
import IqdbIvf.Spec.Transitions

/-!
# Search

`answer` says what a search selects: the probed clusters are the best centroids, and the hits are
the best candidates of these clusters, under the exact score, the ADC score, or the exact score of
an ADC shortlist. `search_meets_answer` proves that `ivf_search` returns it, when `compute_batch`
scores each vector independently of the others of its batch; without that assumption
`search_no_panic` still holds, and both come from one walk through the code.
-/

set_option linter.unusedSectionVars false

namespace IqdbIvf

open Outcome Ranking Selection

variable {F32 : Type} [Arith F32] {X : Crates F32} {s : IvfIndex X} {query : List F32}

/-! ## Ranking the centroids -/

section Centroids

variable {Rc : List F32 → F32 → Prop} {E : Fault → Prop}

/-- The clusters of the best centroids, at distances in the relation. -/
def Probed (s : IvfIndex X) (Rc : List F32 → F32 → Prop) (probed : List ℕ) : Prop :=
  ∃ out, Selects Arith.totalCmp Prod.snd (fun c : List F32 × ℕ => Rc c.1) s.cfg.n_probes
    s.centroids.zipIdx out ∧ probed = out.map fun p => p.1.2

/-- The probed clusters are distinct clusters of the index, as many as `n_probes`. -/
theorem Probed.spec {probed : List ℕ} (h : Probed s Rc probed) :
    probed.Nodup ∧ (∀ c ∈ probed, c < s.centroids.length) ∧
      probed.length = min s.cfg.n_probes s.centroids.length := by
  obtain ⟨out, hout, rfl⟩ := h
  -- No cluster is selected twice, because the centroids are numbered by position.
  have hsub : (out.map fun p => p.1.2).Subperm (List.range s.centroids.length) := by
    obtain ⟨l, hperm, hsub⟩ := hout.subperm
    refine ⟨l.map Prod.snd, ?_, ?_⟩
    · have hmap := hperm.map Prod.snd
      rwa [List.map_map] at hmap
    · have hmap := hsub.map Prod.snd
      rwa [List.zipIdx_map_snd, ← List.range_eq_range'] at hmap
  refine ⟨?_, fun c hc => List.mem_range.1 (hsub.subset hc), ?_⟩
  · obtain ⟨l, hperm, hsub⟩ := hsub
    exact (hperm.nodup_iff).1 (List.nodup_range.sublist hsub)
  · rw [List.length_map, hout.length_eq, List.length_zipIdx]

/-- Pass 1 of the search. -/
theorem rankCentroids_meets
    (hbatch : Meets (orientedBatch X s.metric query s.centroids) (List.Forall₂ Rc s.centroids)
      fun e => E (.err e)) :
    Meets (rankCentroids s query) (Probed s Rc) E := by
  unfold rankCentroids
  simp only [liftM_result]
  apply hbatch.mapError.bind
  intro dists hdists
  have hlen : s.centroids.length = dists.length := hdists.length_eq
  -- The distances paired with the centroids and their positions.
  let ps : List ((List F32 × ℕ) × F32) := s.centroids.zipIdx.zip dists
  have hpslen : s.centroids.zipIdx.length = dists.length := by rw [List.length_zipIdx, hlen]
  have hfst : ps.map Prod.fst = s.centroids.zipIdx := List.map_fst_zip (le_of_eq hpslen)
  have hsnd : ps.map Prod.snd = dists := List.map_snd_zip (le_of_eq hpslen.symm)
  have hstamps : ps.map (fun p => p.1.2) = List.range s.centroids.length := by
    calc ps.map (fun p => p.1.2) = (ps.map Prod.fst).map Prod.snd := by
          rw [List.map_map]
          rfl
      _ = List.range s.centroids.length := by
          rw [hfst, List.zipIdx_map_snd, ← List.range_eq_range']
  have hR : ∀ p ∈ ps, Rc p.1.1 p.2 := by
    rintro ⟨⟨c, i⟩, d⟩ hp
    obtain ⟨j, hj⟩ := List.mem_iff_getElem?.1 hp
    obtain ⟨hci, hd⟩ := List.getElem?_zip_eq_some.1 hj
    rw [List.getElem?_zipIdx, Option.map_eq_some_iff] at hci
    obtain ⟨c', hc', heq⟩ := hci
    obtain ⟨rfl, -⟩ := Prod.mk.inj heq
    obtain ⟨d', hd', hR⟩ := getElem?_of_forall₂ hdists hc'
    rw [hd] at hd'
    obtain rfl := Option.some.inj hd'
    exact hR
  have hps : ps.length = s.centroids.length := by
    rw [← List.length_map Prod.fst, hfst, List.length_zipIdx]
  have hselect := selectTopkIndices_range Prod.snd (min s.cfg.n_probes s.centroids.length)
    (hstamps.trans (congrArg List.range hps.symm))
  rw [hsnd, hps] at hselect
  have hselects : Selects Arith.totalCmp Prod.snd (fun c : List F32 × ℕ => Rc c.1)
      (min s.cfg.n_probes s.centroids.zipIdx.length) s.centroids.zipIdx
      ((rank Arith.totalCmp Prod.snd (fun p : (List F32 × ℕ) × F32 => p.1.2) ps).take
        (min s.cfg.n_probes s.centroids.length)) :=
    ⟨ps, hfst, hR, by rw [List.length_zipIdx]⟩
  rw [hselect]
  exact ⟨_, hselects.of_min, rfl⟩

end Centroids

/-! ## The walk through `ivf_search` -/

/-- Pass 2 of the search: the scan for the mode of the index and the filter of the query. -/
def IvfIndex.scan (s : IvfIndex X) (query : List F32) (evaluator : Option X.FilterEvaluator)
    (k : ℕ) (probed : List ℕ) : Fallible (List (Hit X)) :=
  if s.cfg.use_pq then
    match evaluator with
    | none => scanPqUnfiltered s query probed k
    | some eval => scanPqFiltered s eval query probed k
  else
    match evaluator with
    | none => scanFlatUnfiltered s query probed k
    | some eval => scanFlatFiltered s eval query probed k

/-- The arguments of a search that reach its two passes. -/
structure Reaches (s : IvfIndex X) (query : List F32) (params : SearchParams X)
    (evaluator : Option X.FilterEvaluator) : Prop where
  trained : s.trained = true
  dim : query.length = s.dim
  metric : params.metric = s.metric
  k_ne_zero : params.k ≠ 0
  live : s.live_count ≠ 0
  filter : evaluatorOf X params.filter = .ok evaluator

/-- A search that reaches its two passes runs them. -/
theorem Reaches.search_eq (h : Inv s) {params : SearchParams X}
    {evaluator : Option X.FilterEvaluator} (hr : Reaches s query params evaluator) :
    s.search query params = rankCentroids s query >>= s.scan query evaluator params.k.toNat := by
  have hreq := requireTrained_of_trained hr.trained
  have hstop : ¬ (decide (params.k = 0) || decide (s.live_count = 0)) = true := by
    simp [hr.k_ne_zero, hr.live]
  -- The defensive return of an index without centroids is not taken.
  have hcs : ¬ s.centroids.isEmpty = true := by
    have hlen := (h.centroids hr.trained).length_eq
    have hpos := h.valid.one_le_n_clusters
    rw [List.isEmpty_iff_length_eq_zero]
    omega
  unfold IvfIndex.search ivfSearch IvfIndex.scan
  simp only [hreq, liftM_result, mapError_ok, ok_bind, hr.dim, ne_eq, not_true, if_false,
    hr.metric, if_neg hstop, hr.filter, if_neg hcs]
  cases huse : s.cfg.use_pq with
  | false =>
    cases evaluator with
    | none => rfl
    | some eval => rfl
  | true =>
    cases evaluator with
    | none => rfl
    | some eval => rfl

/-- What a search returns when it does not reach its passes. -/
def IvfIndex.gate (s : IvfIndex X) (query : List F32) (params : SearchParams X) :
    Option (Except IqdbError (List (Hit X))) :=
  if !s.trained then some (.error (.invalidConfig "IvfIndex must be trained before use"))
  else if query.length ≠ s.dim then some (.error (.dimensionMismatch s.dim query.length))
  else if params.metric ≠ s.metric then some (.error .invalidMetric)
  else if params.k = 0 ∨ s.live_count = 0 then some (.ok [])
  else match evaluatorOf X params.filter with
    | .error e => some (.error e)
    | .ok _ => none

/-- A search either returns what its gate says, or reaches its passes. -/
theorem search_cases (s : IvfIndex X) (query : List F32) (params : SearchParams X) :
    (∃ r, s.gate query params = some r ∧ s.search query params = r.mapError .err) ∨
      ∃ evaluator, Reaches s query params evaluator := by
  unfold IvfIndex.gate
  cases htrained : s.trained with
  | false =>
    refine .inl ⟨_, rfl, ?_⟩
    unfold IvfIndex.search
    rw [requireTrained_of_untrained htrained]
    rfl
  | true =>
    have hreq := requireTrained_of_trained htrained
    rw [Bool.not_true, if_neg Bool.false_ne_true]
    by_cases hdim : query.length = s.dim
    · rw [if_neg (not_not.2 hdim)]
      by_cases hmetric : params.metric = s.metric
      · rw [if_neg (not_not.2 hmetric)]
        by_cases hstop : params.k = 0 ∨ s.live_count = 0
        · have hcond : (decide (params.k = 0) || decide (s.live_count = 0)) = true := by
            simpa using hstop
          rw [if_pos hstop]
          refine .inl ⟨_, rfl, ?_⟩
          unfold IvfIndex.search ivfSearch
          simp only [hreq, liftM_result, mapError_ok, ok_bind, hdim, ne_eq, not_true, if_false,
            hmetric, if_pos hcond]
          rfl
        · have hcond : ¬ (decide (params.k = 0) || decide (s.live_count = 0)) = true := by
            simpa using hstop
          rw [if_neg hstop]
          cases hfilter : evaluatorOf X params.filter with
          | error e =>
            refine .inl ⟨_, rfl, ?_⟩
            unfold IvfIndex.search ivfSearch
            simp only [hreq, liftM_result, mapError_ok, ok_bind, hdim, ne_eq, not_true, if_false,
              hmetric, if_neg hcond, hfilter, mapError_error, error_bind]
          | ok evaluator =>
            rw [not_or] at hstop
            exact .inr ⟨evaluator, htrained, hdim, hmetric, hstop.1, hstop.2, hfilter⟩
      · rw [if_pos hmetric]
        refine .inl ⟨_, rfl, ?_⟩
        unfold IvfIndex.search ivfSearch
        simp only [hreq, liftM_result, mapError_ok, ok_bind, hdim, ne_eq, not_true, if_false,
          hmetric, not_false_iff, if_true]
        rfl
    · rw [if_pos hdim]
      refine .inl ⟨_, rfl, ?_⟩
      unfold IvfIndex.search ivfSearch
      simp only [hreq, liftM_result, mapError_ok, ok_bind, ne_eq, hdim, not_false_iff, if_true]
      rfl

/-- A search that reaches its passes is not stopped by its gate. -/
theorem Reaches.gate_eq_none {params : SearchParams X} {evaluator : Option X.FilterEvaluator}
    (hr : Reaches s query params evaluator) : s.gate query params = none := by
  have hstop : ¬ (params.k = 0 ∨ s.live_count = 0) := not_or.2 ⟨hr.k_ne_zero, hr.live⟩
  unfold IvfIndex.gate
  rw [hr.trained, Bool.not_true, if_neg Bool.false_ne_true, if_neg (not_not.2 hr.dim),
    if_neg (not_not.2 hr.metric), if_neg hstop, hr.filter]

/-- With arguments that the index accepts a search reaches its passes, unless it has nothing to do.
-/
theorem search_cases_of_valid (htrained : s.trained = true) (hdim : query.length = s.dim)
    {params : SearchParams X} (hmetric : params.metric = s.metric)
    {evaluator : Option X.FilterEvaluator} (hfilter : evaluatorOf X params.filter = .ok evaluator) :
    ((params.k = 0 ∨ s.live_count = 0) ∧ s.search query params = .ok []) ∨
      Reaches s query params evaluator := by
  rcases search_cases s query params with ⟨r, hr, hsearch⟩ | ⟨evaluator', hr⟩
  · left
    unfold IvfIndex.gate at hr
    rw [htrained, Bool.not_true, if_neg Bool.false_ne_true, if_neg (not_not.2 hdim),
      if_neg (not_not.2 hmetric)] at hr
    split_ifs at hr with hstop
    · obtain rfl := Option.some.inj hr
      exact ⟨hstop, hsearch⟩
    · rw [hfilter] at hr
      cases hr
  · right
    have heq : evaluator' = evaluator := Except.ok.inj (hr.filter.symm.trans hfilter)
    rwa [heq] at hr

/-! ## The passes, under assumptions on the scores -/

section Passes

variable {Rc : List F32 → F32 → Prop} {R : InvertedListEntry X → F32 → Prop} {E : Fault → Prop}
  {evaluator : Option X.FilterEvaluator} {k : ℕ}

/-- What a caller assumes of the scores that the two passes ask for: those of the centroids satisfy
`Rc`, the exact ones of entries `R`, and a failure `E`. -/
structure Assumes (s : IvfIndex X) (query : List F32) (evaluator : Option X.FilterEvaluator)
    (k : ℕ) (Rc : List F32 → F32 → Prop) (R : InvertedListEntry X → F32 → Prop)
    (E : Fault → Prop) : Prop where
  centroids : Meets (orientedBatch X s.metric query s.centroids) (List.Forall₂ Rc s.centroids)
    fun e => E (.err e)
  flat : s.cfg.use_pq = false → ∀ probed, Probed s Rc probed →
    BatchMeets s query R E (s.candidates evaluator probed)
  tables : ∀ pq, s.pq = some pq → s.cfg.use_pq = true → ∀ err,
    X.buildQueryTables pq query s.metric = .error err → ∀ probed, Probed s Rc probed → E (.err err)
  adc : ∀ pq tables, s.pq = some pq → s.cfg.use_pq = true →
    X.buildQueryTables pq query s.metric = .ok tables → ∀ probed, Probed s Rc probed →
    ∀ e ∈ s.candidates evaluator probed, ∀ err, adcScore X s.metric tables e = none → E (.err err)
  rerank : ∀ pq tables, s.pq = some pq → s.cfg.use_pq = true →
    X.buildQueryTables pq query s.metric = .ok tables → s.cfg.pq_refine_factor ≠ 0 →
    ∀ probed, Probed s Rc probed → ∀ short,
    Ranked (fun e d => adcScore X s.metric tables e = some d) (s.candidates evaluator probed)
      (saturatingMul s.cfg.pq_refine_factor.toNat k) short →
    BatchMeets s query R E (short.map Prod.fst)

/-- What pass 2 selects among the candidates. -/
def ScanSelects (s : IvfIndex X) (query : List F32) (R : InvertedListEntry X → F32 → Prop)
    (cands : List (InvertedListEntry X)) (k : ℕ) (out : List (InvertedListEntry X × F32)) : Prop :=
  if s.cfg.use_pq then
    ∃ pq tables, s.pq = some pq ∧ X.buildQueryTables pq query s.metric = .ok tables ∧
      PqRanked s tables R cands k out
  else Ranked R cands k out

/-- The two passes: the best centroids, and the selection among the candidates of their clusters. -/
theorem passes_meets (h : Inv s) (htrained : s.trained = true)
    (ha : Assumes s query evaluator k Rc R E) :
    Meets (rankCentroids s query >>= s.scan query evaluator k)
      (fun hits => ∃ probed out, Probed s Rc probed ∧
        ScanSelects s query R (s.candidates evaluator probed) k out ∧ hits = out.map hitOf) E := by
  apply (rankCentroids_meets ha.centroids).bind
  intro probed hprobed
  obtain ⟨hnodup, hlt, -⟩ := hprobed.spec
  have hlt' : ∀ c ∈ probed, c < s.inverted_lists.length := fun c hc => by
    rw [h.lists_length, ← (h.centroids htrained).length_eq]
    exact hlt c hc
  unfold IvfIndex.scan ScanSelects
  cases huse : s.cfg.use_pq with
  | false =>
    rw [if_neg Bool.false_ne_true]
    apply (scanFlat_meets h hnodup hlt' (ha.flat huse probed hprobed)).mono _ fun _ => id
    rintro hits ⟨out, hout, rfl⟩
    exact ⟨probed, out, hprobed, by rwa [if_neg Bool.false_ne_true], rfl⟩
  | true =>
    obtain ⟨pq, hpq⟩ := h.exists_pq htrained huse
    have hcode : ∀ e ∈ s.entries, ∃ code, e.pq_code = some code := by
      intro e he
      obtain ⟨code, -, hcode⟩ := h.quantized hpq he
      exact ⟨code, hcode⟩
    have hscan := scanPq_meets h hnodup hlt' hpq hcode
      (fun err herr => ha.tables pq hpq huse err herr probed hprobed)
      (fun tables hbuild => ha.adc pq tables hpq huse hbuild probed hprobed)
      (fun hzero tables hbuild => ha.rerank pq tables hpq huse hbuild hzero probed hprobed)
    rw [if_pos rfl]
    apply hscan.mono _ fun _ => id
    rintro hits ⟨tables, hbuild, out, hout, rfl⟩
    exact ⟨probed, out, hprobed, by rw [if_pos rfl]; exact ⟨pq, tables, hpq, hbuild, hout⟩, rfl⟩

end Passes

/-! ## No panics -/

/-- Nothing is assumed of the scores, and of a failure only that it is an error. -/
theorem assumes_nothing (s : IvfIndex X) (query : List F32)
    (evaluator : Option X.FilterEvaluator) (k : ℕ) :
    Assumes s query evaluator k (fun _ _ => True) (fun _ _ => True) Fault.IsErr := by
  have hbatch : ∀ {α : Type} (vectors : List α) (refs : List (List F32)),
      vectors.length = refs.length →
      Meets (orientedBatch X s.metric query refs) (List.Forall₂ (fun _ _ => True) vectors)
        fun e => (Fault.err e).IsErr := by
    intro α vectors refs hlen
    unfold orientedBatch
    cases hb : X.computeBatch s.metric query refs (List.replicate refs.length 0) with
    | error e => exact trivial
    | ok dists =>
      have hdists : vectors.length = (dists.1.map (orient s.metric)).length := by
        rw [List.length_map, dists.2, List.length_replicate, hlen]
      exact List.forall₂_iff_get.2 ⟨hdists, fun _ _ _ => trivial⟩
  exact {
    centroids := hbatch _ _ rfl
    flat := fun _ _ _ es _ _ => hbatch es _ (List.length_map _).symm
    tables := fun _ _ _ _ _ _ _ => trivial
    adc := fun _ _ _ _ _ _ _ _ _ _ _ => trivial
    rerank := fun _ _ _ _ _ _ _ _ _ _ es _ _ => hbatch es _ (List.length_map _).symm }

/-- A search does not panic, whatever the other crates return. -/
theorem search_no_panic (h : Inv s) (query : List F32) (params : SearchParams X) :
    Meets (s.search query params) (fun _ => True) Fault.IsErr := by
  rcases search_cases s query params with ⟨r, -, hsearch⟩ | ⟨evaluator, hr⟩
  · rw [hsearch]
    cases r with
    | error e => exact trivial
    | ok hits => exact trivial
  · rw [hr.search_eq h]
    exact (passes_meets h hr.trained (assumes_nothing s query evaluator _)).mono
      (fun _ _ => trivial) fun _ => id

/-! ## Exact results -/

/-- `compute_batch` on vectors of dimension `dim` scores each of them on its own, by a function of
the query and the vector, and fails when that function is undefined on one of them. -/
def ScoresEach (X : Crates F32) (metric : DistanceMetric) (dim : ℕ)
    (score : List F32 → List F32 → Option F32) : Prop :=
  ∀ query refs out, query.length = dim → (∀ v ∈ refs, v.length = dim) → refs ≠ [] →
    out.length = refs.length →
    Meets (X.computeBatch metric query refs out)
      (fun dists => List.Forall₂ (fun v d => score query v = some d) refs dists.1)
      fun _ => ∃ v ∈ refs, score query v = none

/-- The tables of a quantizer for a query of dimension `dim` can be built, and score every code that
the quantizer gives to a vector of this dimension. -/
def AdcSucceeds (X : Crates F32) (metric : DistanceMetric) (dim : ℕ) (pq : X.ProductQuantizer) :
    Prop :=
  ∀ query, query.length = dim → ∃ tables, X.buildQueryTables pq query metric = .ok tables ∧
    ∀ v code, v.length = dim → X.quantize pq v = .ok code →
      ∃ d, X.adcDistance tables code = .ok d

/-- Tables that score the codes of the quantizer score every entry of the index. -/
theorem Inv.exists_adc (h : Inv s) {pq : X.ProductQuantizer} (hpq : s.pq = some pq)
    {tables : X.PqAdcTables}
    (hlookup : ∀ v code, v.length = s.dim → X.quantize pq v = .ok code →
      ∃ d, X.adcDistance tables code = .ok d) {e : InvertedListEntry X} (he : e ∈ s.entries) :
    ∃ code adc, e.pq_code = some code ∧ X.adcDistance tables code = .ok adc ∧
      adcScore X s.metric tables e = some (orient s.metric adc) := by
  obtain ⟨code, hquantize, hcode⟩ := h.quantized hpq he
  obtain ⟨adc, hadc⟩ := hlookup e.vector code (h.vector_length he) hquantize
  refine ⟨code, adc, hcode, hadc, ?_⟩
  unfold adcScore
  rw [hcode, Option.bind_some, hadc]
  rfl

/-- The exact distance of a vector, with the sign convention of the index. -/
def exactScore (metric : DistanceMetric) (score : List F32 → List F32 → Option F32)
    (query vector : List F32) : Option F32 := (score query vector).map (orient metric)

/-- The oriented batch of vectors that are scored one by one. -/
theorem orientedBatch_meets {score : List F32 → List F32 → Option F32}
    (hs : ScoresEach X s.metric s.dim score) (hq : query.length = s.dim)
    {refs : List (List F32)} (hdim : ∀ v ∈ refs, v.length = s.dim) (hne : refs ≠ []) :
    Meets (orientedBatch X s.metric query refs)
      (List.Forall₂ (fun v d => exactScore s.metric score query v = some d) refs)
      fun _ => ∃ v ∈ refs, exactScore s.metric score query v = none := by
  unfold orientedBatch
  have hbatch := hs query refs (List.replicate refs.length 0) hq hdim hne List.length_replicate
  have hnone : ∀ e : IqdbError, (∃ v ∈ refs, score query v = none) →
      ∃ v ∈ refs, exactScore s.metric score query v = none := by
    rintro - ⟨v, hv, hnone⟩
    exact ⟨v, hv, by rw [exactScore, hnone]; rfl⟩
  apply (hbatch.mono (fun _ => id) hnone).bind
  intro dists hdists
  show List.Forall₂ _ refs (dists.1.map (orient s.metric))
  rw [List.forall₂_map_right_iff]
  apply hdists.imp
  intro v d hd
  rw [exactScore, hd]
  rfl

/-- How pass 2 selects, under an exact score: by it in IVF-Flat mode; in IVF-PQ mode by the ADC
score, or by the exact score among the best of the ADC score. -/
def IvfIndex.plan (s : IvfIndex X) (query : List F32) (exact : List F32 → Option F32) (k : ℕ) :
    Option (Plan (InvertedListEntry X) F32) :=
  if s.cfg.use_pq then do
    let pq ← s.pq
    let tables ← (X.buildQueryTables pq query s.metric).toOption
    let adc := adcScore X s.metric tables
    if s.cfg.pq_refine_factor = 0 then
      return .direct adc
    else
      let shortlist_k := saturatingMul s.cfg.pq_refine_factor.toNat k
      return .staged adc (fun e => exact e.vector) shortlist_k
  else return .direct fun e => exact e.vector

/-- What a search selects under an exact score: the best candidates of the clusters with the best
centroids. -/
def IvfIndex.answer (s : IvfIndex X) (query : List F32) (exact : List F32 → Option F32)
    (evaluator : Option X.FilterEvaluator) (k : ℕ) : Option (List (InvertedListEntry X × F32)) := do
  let centroids ← best Arith.totalCmp (fun c : List F32 × ℕ => exact c.1) Prod.snd s.cfg.n_probes
    s.centroids.zipIdx
  let plan ← s.plan query exact k
  plan.run Arith.totalCmp (fun e => e.seq) k
    (s.candidates evaluator (centroids.map fun p => p.1.2))

section Exact

variable {exact : List F32 → Option F32} {evaluator : Option X.FilterEvaluator} {k : ℕ}

/-- A selection of clusters by the exact scores of their centroids. -/
theorem probed_iff {probed : List ℕ} :
    Probed s (fun c d => exact c = some d) probed ↔
      ∃ centroids, best Arith.totalCmp (fun c : List F32 × ℕ => exact c.1) Prod.snd s.cfg.n_probes
        s.centroids.zipIdx = some centroids ∧ probed = centroids.map fun p => p.1.2 := by
  constructor
  · rintro ⟨out, hout, rfl⟩
    exact ⟨out, selects_iff_best.1 hout, rfl⟩
  · rintro ⟨out, hout, rfl⟩
    exact ⟨out, selects_iff_best.2 hout, rfl⟩

/-- The answer over the clusters that were selected. -/
theorem answer_of_probed {centroids : List ((List F32 × ℕ) × F32)}
    (hcentroids : best Arith.totalCmp (fun c : List F32 × ℕ => exact c.1) Prod.snd s.cfg.n_probes
      s.centroids.zipIdx = some centroids) :
    s.answer query exact evaluator k = (s.plan query exact k).bind fun plan =>
      plan.run Arith.totalCmp (fun e => e.seq) k
        (s.candidates evaluator (centroids.map fun p => p.1.2)) := by
  unfold IvfIndex.answer
  rw [hcentroids]
  rfl

/-- The plan in IVF-Flat mode. -/
theorem plan_of_flat (huse : s.cfg.use_pq = false) :
    s.plan query exact k = some (.direct fun e => exact e.vector) := by
  unfold IvfIndex.plan
  rw [huse, if_neg Bool.false_ne_true]
  rfl

/-- The plan in IVF-PQ mode, when the query tables were built. -/
theorem plan_of_pq (huse : s.cfg.use_pq = true) {pq : X.ProductQuantizer} (hpq : s.pq = some pq)
    {tables : X.PqAdcTables} (hbuild : X.buildQueryTables pq query s.metric = .ok tables) :
    s.plan query exact k = some (if s.cfg.pq_refine_factor = 0 then
        .direct (adcScore X s.metric tables)
      else .staged (adcScore X s.metric tables) (fun e => exact e.vector)
        (saturatingMul s.cfg.pq_refine_factor.toNat k)) := by
  unfold IvfIndex.plan
  rw [huse, if_pos rfl, hpq]
  simp only [Option.bind_eq_bind, Option.bind_some, hbuild, Except.toOption]
  split_ifs
  · rfl
  · rfl

/-- Without query tables there is no plan. -/
theorem plan_of_tables_error (huse : s.cfg.use_pq = true) {pq : X.ProductQuantizer}
    (hpq : s.pq = some pq) {err : IqdbError}
    (hbuild : X.buildQueryTables pq query s.metric = .error err) :
    s.plan query exact k = none := by
  unfold IvfIndex.plan
  rw [huse, if_pos rfl, hpq]
  simp only [Option.bind_eq_bind, Option.bind_some, hbuild]
  rfl

/-- What pass 2 selects is the answer. -/
theorem answer_of_scanSelects {probed : List ℕ} {out : List (InvertedListEntry X × F32)}
    (hprobed : Probed s (fun c d => exact c = some d) probed)
    (hout : ScanSelects s query (fun e d => exact e.vector = some d)
      (s.candidates evaluator probed) k out) :
    s.answer query exact evaluator k = some out := by
  obtain ⟨centroids, hcentroids, rfl⟩ := probed_iff.1 hprobed
  rw [answer_of_probed hcentroids]
  unfold ScanSelects at hout
  cases huse : s.cfg.use_pq with
  | false =>
    rw [huse, if_neg Bool.false_ne_true] at hout
    rw [plan_of_flat huse]
    exact selects_iff_best.1 hout
  | true =>
    rw [huse, if_pos rfl] at hout
    obtain ⟨pq, tables, hpq, hbuild, hout⟩ := hout
    rw [plan_of_pq huse hpq hbuild, Option.bind_some]
    unfold PqRanked at hout
    by_cases hzero : s.cfg.pq_refine_factor = 0
    · rw [if_pos hzero] at hout ⊢
      exact selects_iff_best.1 hout
    · rw [if_neg hzero] at hout ⊢
      obtain ⟨short, hshort, hout⟩ := hout
      rw [Plan.run_staged, selects_iff_best.1 hshort, Option.bind_some]
      exact selects_iff_best.1 hout

/-- Each assumption of the passes holds when vectors are scored one by one, and a failure leaves no
answer. -/
theorem assumes_exact (h : Inv s) (htrained : s.trained = true)
    {score : List F32 → List F32 → Option F32} (hs : ScoresEach X s.metric s.dim score)
    (hq : query.length = s.dim) :
    Assumes s query evaluator k (fun c d => exactScore s.metric score query c = some d)
      (fun e d => exactScore s.metric score query e.vector = some d)
      fun f => f.IsErr ∧
        s.answer query (exactScore s.metric score query) evaluator k = none := by
  have hdim : ∀ probed, ∀ e ∈ s.candidates evaluator probed, e.vector.length = s.dim := by
    intro probed e he
    exact h.vector_length (mem_entries_of_candidates he)
  -- A batch of entries, and what its failure says of them.
  have hbatch : ∀ {E : Fault → Prop} {cands : List (InvertedListEntry X)},
      (∀ e ∈ cands, e.vector.length = s.dim) →
      (∀ e ∈ cands, exactScore s.metric score query e.vector = none → ∀ err, E (.err err)) →
      BatchMeets s query (fun e d => exactScore s.metric score query e.vector = some d) E
        cands := by
    intro E cands hcands hnone es hne hes
    have hrefs : ∀ v ∈ es.map (·.vector), v.length = s.dim := by
      intro v hv
      obtain ⟨e, he, rfl⟩ := List.mem_map.1 hv
      exact hcands e (hes e he)
    apply (orientedBatch_meets hs hq hrefs (by simpa using hne)).mono
    · intro ds hds
      exact (List.forall₂_map_left_iff).1 hds
    · rintro err ⟨v, hv, hv'⟩
      obtain ⟨e, he, rfl⟩ := List.mem_map.1 hv
      exact hnone e (hes e he) hv' err
  refine ⟨?_, ?_, ?_, ?_, ?_⟩
  -- The batch of all centroids: one that has no score leaves nothing to probe.
  · have hcs := h.centroids htrained
    have hne : s.centroids ≠ [] := by
      have hlen := hcs.length_eq
      have hpos := h.valid.one_le_n_clusters
      rw [← List.length_pos_iff]
      omega
    apply (orientedBatch_meets hs hq hcs.dims hne).mono fun _ => id
    rintro err ⟨c, hc, hnone⟩
    refine ⟨trivial, ?_⟩
    obtain ⟨i, hi⟩ := List.mem_iff_getElem?.1 hc
    have hbest : best Arith.totalCmp (fun c : List F32 × ℕ => exactScore s.metric score query c.1)
        Prod.snd s.cfg.n_probes s.centroids.zipIdx = none :=
      best_eq_none_iff.2 ⟨(c, i), List.mem_zipIdx_iff_getElem?.2 hi, hnone⟩
    unfold IvfIndex.answer
    rw [hbest]
    rfl
  -- A batch of one cluster in IVF-Flat mode.
  · intro huse probed hprobed
    obtain ⟨centroids, hcentroids, rfl⟩ := probed_iff.1 hprobed
    apply hbatch (hdim _)
    intro e he hnone err
    refine ⟨trivial, ?_⟩
    rw [answer_of_probed hcentroids, plan_of_flat huse]
    exact best_eq_none_iff.2 ⟨e, he, hnone⟩
  -- The query tables.
  · intro pq hpq huse err hbuild probed hprobed
    obtain ⟨centroids, hcentroids, rfl⟩ := probed_iff.1 hprobed
    refine ⟨trivial, ?_⟩
    rw [answer_of_probed hcentroids, plan_of_tables_error huse hpq hbuild]
    rfl
  -- The lookup of one code: the coarse score of both plans.
  · intro pq tables hpq huse hbuild probed hprobed e he err hnone
    obtain ⟨centroids, hcentroids, rfl⟩ := probed_iff.1 hprobed
    refine ⟨trivial, ?_⟩
    rw [answer_of_probed hcentroids, plan_of_pq huse hpq hbuild, Option.bind_some]
    split_ifs
    · exact best_eq_none_iff.2 ⟨e, he, hnone⟩
    · rw [Plan.run_staged, best_eq_none_iff.2 ⟨e, he, hnone⟩]
      rfl
  -- The batch of the shortlist, whose entries are candidates.
  · intro pq tables hpq huse hbuild hzero probed hprobed short hshort
    obtain ⟨centroids, hcentroids, rfl⟩ := probed_iff.1 hprobed
    apply hbatch fun e he => hdim _ e (hshort.subperm.subset he)
    intro e he hnone err
    refine ⟨trivial, ?_⟩
    rw [answer_of_probed hcentroids, plan_of_pq huse hpq hbuild, Option.bind_some, if_neg hzero,
      Plan.run_staged, selects_iff_best.1 hshort, Option.bind_some]
    exact best_eq_none_iff.2 ⟨e, he, hnone⟩

/-- A search that reaches its passes returns the hits of its answer, and fails when there is none.
-/
theorem search_meets_answer (h : Inv s) {score : List F32 → List F32 → Option F32}
    (hs : ScoresEach X s.metric s.dim score) {params : SearchParams X}
    (hr : Reaches s query params evaluator) :
    Meets (s.search query params)
      (fun hits => ∃ out, s.answer query (exactScore s.metric score query) evaluator
        params.k.toNat = some out ∧ hits = out.map hitOf)
      fun f => f.IsErr ∧ s.answer query (exactScore s.metric score query) evaluator
        params.k.toNat = none := by
  rw [hr.search_eq h]
  apply (passes_meets h hr.trained (assumes_exact h hr.trained hs hr.dim)).mono _ fun _ => id
  rintro hits ⟨probed, out, hprobed, hout, rfl⟩
  exact ⟨out, answer_of_scanSelects hprobed hout, rfl⟩

/-- The hits of a search that reaches its passes. -/
theorem search_eq_ok_iff (h : Inv s) {score : List F32 → List F32 → Option F32}
    (hs : ScoresEach X s.metric s.dim score) {params : SearchParams X}
    (hr : Reaches s query params evaluator) {hits : List (Hit X)} :
    s.search query params = .ok hits ↔
      (s.answer query (exactScore s.metric score query) evaluator params.k.toNat).map
        (List.map hitOf) = some hits := by
  have hmeets := search_meets_answer h hs hr
  constructor
  · intro hok
    obtain ⟨out, hout, rfl⟩ := hmeets.of_ok hok
    rw [hout]
    rfl
  · intro hout
    obtain ⟨out, hans, rfl⟩ := Option.map_eq_some_iff.1 hout
    cases hsearch : s.search query params with
    | error f =>
      have hnone := (hmeets.of_error hsearch).2
      rw [hans] at hnone
      cases hnone
    | ok hits =>
      obtain ⟨out', hans', rfl⟩ := hmeets.of_ok hsearch
      rw [hans] at hans'
      obtain rfl := Option.some.inj hans'
      rfl

end Exact

end IqdbIvf
