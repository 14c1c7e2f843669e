import IqdbIvf.Spec.Search

/-!
# What the interface shows of an index

The view of an index is its configuration, its model, and the items that were stored, in insertion
order. It leaves out everything that an index keeps for itself: in which list and at which position
an entry is, its stamp, its code, the id map. `search_view` proves that the hits of a search are a
function of the view, with the position of an item in insertion order in place of its stamp.
-/

set_option linter.unusedSectionVars false

namespace IqdbIvf

open Outcome Ranking Selection

variable {F32 : Type} [Arith F32] {X : Crates F32} {s : IvfIndex X}

/-- What a caller stores: an entry without its code and its stamp. -/
@[ext] structure Item (X : Crates F32) where
  id : X.VectorId
  vector : List F32
  metadata : Option X.Metadata

/-- The stored item of an entry. -/
def InvertedListEntry.item (e : InvertedListEntry X) : Item X := ⟨e.id, e.vector, e.metadata⟩

/-- The live items, in insertion order. -/
def IvfIndex.items (s : IvfIndex X) : List (Item X) := s.live.map (·.item)

/-- What the interface shows of an index. -/
@[ext] structure View (X : Crates F32) where
  dim : ℕ
  metric : DistanceMetric
  cfg : IvfConfig
  trained : Bool
  centroids : List (List F32)
  pq : Option X.ProductQuantizer
  items : List (Item X)

/-- The view of an index. -/
def IvfIndex.view (s : IvfIndex X) : View X where
  dim := s.dim
  metric := s.metric
  cfg := s.cfg
  trained := s.trained
  centroids := s.centroids
  pq := s.pq
  items := s.items

namespace View

/-- The ADC score of an item: of the code that the quantizer gives its vector. -/
def adc (X : Crates F32) (metric : DistanceMetric) (pq : X.ProductQuantizer)
    (tables : X.PqAdcTables) (item : Item X) : Option F32 :=
  (X.quantize pq item.vector).toOption.bind fun code =>
    (X.adcDistance tables code).toOption.map (orient metric)

/-- How a search selects among positioned items. -/
def plan (v : View X) (query : List F32) (exact : List F32 → Option F32) (k : ℕ) :
    Option (Plan (Item X × ℕ) F32) :=
  if v.cfg.use_pq then do
    let pq ← v.pq
    let tables ← (X.buildQueryTables pq query v.metric).toOption
    let adc := fun p : Item X × ℕ => adc X v.metric pq tables p.1
    if v.cfg.pq_refine_factor = 0 then
      return .direct adc
    else
      let shortlist_k := saturatingMul v.cfg.pq_refine_factor.toNat k
      return .staged adc (fun p => exact p.1.vector) shortlist_k
  else return .direct fun p => exact p.1.vector

/-- The items of the probed clusters that satisfy the filter, with their positions. -/
def candidates (v : View X) (evaluator : Option X.FilterEvaluator) (probed : List ℕ) :
    List (Item X × ℕ) :=
  v.items.zipIdx.filter fun p =>
    decide (nearest v.centroids p.1.vector ∈ probed) && keeps X evaluator p.1.metadata

/-- The hit for an item at a distance. -/
def hitOf (p : (Item X × ℕ) × F32) : Hit X := ⟨p.1.1.id, p.2, p.1.1.metadata⟩

/-- The clusters that a search probes. -/
def probed (v : View X) (exact : List F32 → Option F32) : Option (List ℕ) :=
  (best Arith.totalCmp (fun c : List F32 × ℕ => exact c.1) Prod.snd v.cfg.n_probes
    v.centroids.zipIdx).map fun centroids => centroids.map fun p => p.1.2

/-- The hits of a search that reaches its passes. -/
def answer (v : View X) (query : List F32) (exact : List F32 → Option F32)
    (evaluator : Option X.FilterEvaluator) (k : ℕ) : Option (List (Hit X)) := do
  let probed ← v.probed exact
  let plan ← v.plan query exact k
  let out ← plan.run Arith.totalCmp Prod.snd k (v.candidates evaluator probed)
  return out.map hitOf

end View

/-! ## Entries with their positions -/

/-- The cluster of a live entry. -/
theorem Inv.nearest_of_holds (h : Inv s) {c : ℕ} {e : InvertedListEntry X}
    (he : Buckets.Holds s.inverted_lists c e) : nearest s.centroids e.vector = c := by
  unfold nearest
  rw [(h.placed c e he).cluster]
  rfl

/-- The live entries of the probed clusters that satisfy the filter, with their positions in
insertion order. -/
def IvfIndex.positioned (s : IvfIndex X) (evaluator : Option X.FilterEvaluator)
    (probed : List ℕ) : List (InvertedListEntry X × ℕ) :=
  s.live.zipIdx.filter fun p =>
    decide (nearest s.centroids p.1.vector ∈ probed) && keeps X evaluator p.1.metadata

section Positioned

variable {evaluator : Option X.FilterEvaluator} {probed : List ℕ}

/-- Without their positions, they are the candidates of a scan in another order. -/
theorem Inv.candidates_perm (h : Inv s) (hprobed : probed.Nodup) :
    (s.candidates evaluator probed).Perm ((s.positioned evaluator probed).map Prod.fst) := by
  have hpositioned : (s.positioned evaluator probed).map Prod.fst = s.live.filter fun e =>
      decide (nearest s.centroids e.vector ∈ probed) && keeps X evaluator e.metadata :=
    map_fst_filter_zipIdx s.live fun e =>
      decide (nearest s.centroids e.vector ∈ probed) && keeps X evaluator e.metadata
  have hlive : (s.live.map (·.seq)).Nodup := ((s.live_perm.map _).nodup_iff).2 h.seqs_nodup
  have hcands := h.candidates_seqs evaluator hprobed
  -- Neither list repeats an entry, so it is enough that they have the same ones.
  rw [hpositioned, List.perm_ext_iff_of_nodup (List.Nodup.of_map _ hcands)
    ((List.Nodup.of_map _ hlive).filter _)]
  intro e
  rw [mem_candidates, List.mem_filter, Bool.and_eq_true, decide_eq_true_eq, s.live_perm.mem_iff,
    ← and_assoc]
  apply and_congr_left'
  constructor
  · rintro ⟨c, hc, he⟩
    exact ⟨Buckets.mem_flatten_iff.2 ⟨c, he⟩, by rw [h.nearest_of_holds he]; exact hc⟩
  · rintro ⟨he, hnear⟩
    obtain ⟨c, hc⟩ := Buckets.mem_flatten_iff.1 he
    exact ⟨c, by rw [← h.nearest_of_holds hc]; exact hnear, hc⟩

/-- Without their entries' codes and stamps, they are the candidates of the view. -/
theorem positioned_item :
    s.view.candidates evaluator probed =
      (s.positioned evaluator probed).map fun p => (p.1.item, p.2) := by
  show (s.items.zipIdx.filter _) = _
  unfold IvfIndex.items IvfIndex.positioned
  rw [List.zipIdx_map, List.filter_map]
  rfl

/-- Positions are in the order of the stamps. -/
theorem Inv.compare_positions (h : Inv s) {p q : InvertedListEntry X × ℕ}
    (hp : p ∈ s.positioned evaluator probed) (hq : q ∈ s.positioned evaluator probed) :
    compare p.1.seq q.1.seq = compare p.2 q.2 := by
  -- The stamps increase along the live entries, so they compare as the positions do.
  exact compare_zipIdx h.live_sorted (List.mem_filter.1 hp).1 (List.mem_filter.1 hq).1

end Positioned

/-! ## The hits of a search, from the view -/

section Answer

variable {query : List F32} {exact : List F32 → Option F32} {k : ℕ}

/-- The score of an entry's code is the ADC score of its item. -/
theorem Inv.adcScore_eq (h : Inv s) {pq : X.ProductQuantizer} (hpq : s.pq = some pq)
    {e : InvertedListEntry X} (he : e ∈ s.entries) (tables : X.PqAdcTables) :
    adcScore X s.metric tables e = View.adc X s.metric pq tables e.item := by
  obtain ⟨code, hquantize, hcode⟩ := h.quantized hpq he
  unfold adcScore View.adc
  show _ = (X.quantize pq e.vector).toOption.bind _
  rw [hquantize, hcode]
  rfl

/-- The plan of the index and that of its view score entries and items alike. -/
theorem Inv.plan_view (h : Inv s) (htrained : s.trained = true) (query : List F32)
    (exact : List F32 → Option F32) (k : ℕ) :
    (s.plan query exact k = none ∧ s.view.plan query exact k = none) ∨
      ∃ plan plan' middle, s.plan query exact k = some plan ∧
        s.view.plan query exact k = some plan' ∧ ∀ evaluator probed,
          Plan.Agrees Prod.fst (s.positioned evaluator probed) middle plan ∧
          Plan.Agrees (fun p => (p.1.item, p.2)) (s.positioned evaluator probed) middle plan' := by
  have hmem : ∀ evaluator probed, ∀ p ∈ s.positioned evaluator probed, p.1 ∈ s.entries := by
    intro evaluator probed p hp
    have hget := List.mem_zipIdx_iff_getElem?.1 (List.mem_filter.1 hp).1
    exact s.live_perm.mem_iff.1 (List.mem_of_getElem? hget)
  cases huse : s.cfg.use_pq with
  | false =>
    have hview : s.view.plan query exact k = some (.direct fun p => exact p.1.vector) := by
      unfold View.plan
      show (if s.cfg.use_pq then _ else _) = _
      rw [huse, if_neg Bool.false_ne_true]
      rfl
    exact .inr ⟨_, _, .direct fun p => exact p.1.vector, plan_of_flat huse, hview,
      fun _ _ => ⟨.direct fun _ _ => rfl, .direct fun _ _ => rfl⟩⟩
  | true =>
    obtain ⟨pq, hpq⟩ := h.exists_pq htrained huse
    cases hbuild : X.buildQueryTables pq query s.metric with
    | error err =>
      refine .inl ⟨plan_of_tables_error huse hpq hbuild, ?_⟩
      unfold View.plan
      show (if s.cfg.use_pq then _ else _) = _
      rw [huse, if_pos rfl]
      simp only [IvfIndex.view, hpq, Option.bind_eq_bind, Option.bind_some, hbuild]
      rfl
    | ok tables =>
      have hadc : ∀ evaluator probed, ∀ p ∈ s.positioned evaluator probed,
          View.adc X s.metric pq tables p.1.item = adcScore X s.metric tables p.1 :=
        fun evaluator probed p hp => (h.adcScore_eq hpq (hmem evaluator probed p hp) tables).symm
      have hview : s.view.plan query exact k = some (if s.cfg.pq_refine_factor = 0 then
          .direct fun p => View.adc X s.metric pq tables p.1
        else .staged (fun p => View.adc X s.metric pq tables p.1) (fun p => exact p.1.vector)
          (saturatingMul s.cfg.pq_refine_factor.toNat k)) := by
        unfold View.plan
        show (if s.cfg.use_pq then _ else _) = _
        rw [huse, if_pos rfl]
        simp only [IvfIndex.view, hpq, Option.bind_eq_bind, Option.bind_some, hbuild,
          Except.toOption]
        split_ifs
        · rfl
        · rfl
      rw [plan_of_pq huse hpq hbuild, hview]
      by_cases hzero : s.cfg.pq_refine_factor = 0
      · rw [if_pos hzero, if_pos hzero]
        exact .inr ⟨_, _, .direct fun p => adcScore X s.metric tables p.1, rfl, rfl,
          fun evaluator probed => ⟨.direct fun _ _ => rfl, .direct (hadc evaluator probed)⟩⟩
      · rw [if_neg hzero, if_neg hzero]
        exact .inr ⟨_, _, .staged (fun p => adcScore X s.metric tables p.1)
          (fun p => exact p.1.vector) (saturatingMul s.cfg.pq_refine_factor.toNat k), rfl, rfl,
          fun evaluator probed => ⟨.staged (fun _ _ => rfl) fun _ _ => rfl,
            .staged (hadc evaluator probed) fun _ _ => rfl⟩⟩

/-- The clusters of a selection of centroids are distinct. -/
theorem probed_nodup {probed : List ℕ} (h : s.view.probed exact = some probed) : probed.Nodup := by
  obtain ⟨centroids, hcentroids, rfl⟩ := Option.map_eq_some_iff.1 h
  have hprobed : Probed s (fun c d => exact c = some d) (centroids.map fun p => p.1.2) :=
    probed_iff.2 ⟨centroids, hcentroids, rfl⟩
  exact hprobed.spec.1

/-- The hits of the answer are those of the view. -/
theorem Inv.answer_view (h : Inv s) (htrained : s.trained = true)
    (evaluator : Option X.FilterEvaluator) :
    (s.answer query exact evaluator k).map (List.map hitOf) =
      s.view.answer query exact evaluator k := by
  unfold View.answer
  cases hcentroids : best Arith.totalCmp (fun c : List F32 × ℕ => exact c.1) Prod.snd
      s.cfg.n_probes s.centroids.zipIdx with
  | none =>
    have hprobed : s.view.probed exact = none := by
      show Option.map _ _ = _
      rw [show best Arith.totalCmp (fun c : List F32 × ℕ => exact c.1) Prod.snd
        s.view.cfg.n_probes s.view.centroids.zipIdx = none from hcentroids]
      rfl
    unfold IvfIndex.answer
    rw [hcentroids, hprobed]
    rfl
  | some centroids =>
    have hprobed : s.view.probed exact = some (centroids.map fun p => p.1.2) := by
      show Option.map _ _ = _
      rw [show best Arith.totalCmp (fun c : List F32 × ℕ => exact c.1) Prod.snd
        s.view.cfg.n_probes s.view.centroids.zipIdx = some centroids from hcentroids]
      rfl
    have hnodup := probed_nodup hprobed
    rw [answer_of_probed hcentroids, hprobed]
    generalize centroids.map (fun p => p.1.2) = probed at hnodup
    rcases h.plan_view htrained query exact k with
      ⟨hplan, hplan'⟩ | ⟨plan, plan', middle, hplan, hplan', hagrees⟩
    · rw [hplan]
      simp only [Option.bind_eq_bind, Option.bind_some, hplan']
      rfl
    · obtain ⟨hagrees, hagrees'⟩ := hagrees evaluator probed
      have hd := h.candidates_seqs evaluator hnodup
      -- Both runs are images of one run over the positioned entries.
      have hrun : plan.run Arith.totalCmp (fun e => e.seq) k (s.candidates evaluator probed) =
          (middle.run Arith.totalCmp Prod.snd k (s.positioned evaluator probed)).map
            fun out => out.map fun p => (p.1.1, p.2) := by
        rw [plan.run_perm hd (h.candidates_perm hnodup)]
        exact Plan.run_map hagrees fun p hp q hq => h.compare_positions hp hq
      have hrun' : plan'.run Arith.totalCmp Prod.snd k (s.view.candidates evaluator probed) =
          (middle.run Arith.totalCmp Prod.snd k (s.positioned evaluator probed)).map
            fun out => out.map fun p => ((p.1.1.item, p.1.2), p.2) := by
        rw [positioned_item]
        exact Plan.run_map hagrees' fun _ _ _ _ => rfl
      rw [hplan]
      simp only [Option.bind_eq_bind, Option.bind_some, hplan', hrun, hrun']
      cases middle.run Arith.totalCmp Prod.snd k (s.positioned evaluator probed) with
      | none => rfl
      | some out =>
        simp only [Option.map_some, Option.bind_some, List.map_map]
        rfl

/-- The hits of a search that reaches its passes, as a function of the view. -/
theorem search_view (h : Inv s) {score : List F32 → List F32 → Option F32}
    (hs : ScoresEach X s.metric s.dim score) {params : SearchParams X}
    {evaluator : Option X.FilterEvaluator} (hr : Reaches s query params evaluator)
    {hits : List (Hit X)} :
    s.search query params = .ok hits ↔
      s.view.answer query (exactScore s.metric score query) evaluator params.k.toNat =
        some hits := by
  rw [search_eq_ok_iff h hs hr, h.answer_view hr.trained]

/-- Two indexes with one view answer every search alike. -/
theorem search_congr {t : IvfIndex X} (h : Inv s) (ht : Inv t) (hview : s.view = t.view)
    {score : List F32 → List F32 → Option F32} (hs : ScoresEach X s.metric s.dim score)
    (query : List F32) (params : SearchParams X) (hits : List (Hit X)) :
    s.search query params = .ok hits ↔ t.search query params = .ok hits := by
  have hdim : s.dim = t.dim := congrArg View.dim hview
  have hmetric : s.metric = t.metric := congrArg View.metric hview
  have htrained : s.trained = t.trained := congrArg View.trained hview
  have hlive : s.live_count = t.live_count := by
    have hlen := congrArg (fun v => v.items.length) hview
    simpa [IvfIndex.view, IvfIndex.items, h.length_live, ht.length_live] using hlen
  -- The two searches stop at the same check, or reach their passes together.
  have hgate : s.gate query params = t.gate query params := by
    unfold IvfIndex.gate
    rw [hdim, hmetric, htrained, hlive]
  rcases search_cases s query params with ⟨r, hr, hsearch⟩ | ⟨evaluator, hr⟩
  · rcases search_cases t query params with ⟨r', hr', hsearch'⟩ | ⟨evaluator, hr'⟩
    · rw [hgate, hr'] at hr
      obtain rfl := Option.some.inj hr
      rw [hsearch, hsearch']
    · rw [hgate, hr'.gate_eq_none] at hr
      cases hr
  · have hr' : Reaches t query params evaluator :=
      ⟨htrained ▸ hr.trained, hdim ▸ hr.dim, hmetric ▸ hr.metric, hr.k_ne_zero, hlive ▸ hr.live,
        hr.filter⟩
    have hs' : ScoresEach X t.metric t.dim score := by rwa [← hmetric, ← hdim]
    rw [search_view h hs hr, search_view ht hs' hr', hview, hmetric]

end Answer

end IqdbIvf
