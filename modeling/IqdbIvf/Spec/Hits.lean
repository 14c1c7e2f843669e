import IqdbIvf.Spec.Rational

/-!
# The results of a search

When the distances and the tables of the other crates succeed, a search returns a list of hits of
the right length for its candidates, without repetitions and in order, each at its own distance
(`search_hits_wellFormed`). The two stages of a rerank do not lose a candidate that the caller asked
for, because the shortlist is never shorter than `k`.
-/

set_option linter.unusedSectionVars false

namespace IqdbIvf

open Outcome Ranking Selection Rational

variable {F32 : Type} [Arith F32] {X : Crates F32} {s : IvfIndex X} {query : List F32}
  {dist : List F32 → F32} {cands : List (InvertedListEntry X)} {k : ℕ}

/-- The clusters whose centroids are the first `n_probes` by distance and cluster id. -/
def IvfIndex.probes (s : IvfIndex X) (dist : List F32 → F32) : List ℕ :=
  ((rank Arith.totalCmp (fun c : List F32 × ℕ => dist c.1) Prod.snd s.centroids.zipIdx).take
    s.cfg.n_probes).map Prod.snd

/-- The distance that is reported for an entry: the ADC distance in IVF-PQ mode without a refine
factor, and else the exact one. -/
def IvfIndex.Reports (s : IvfIndex X) (query : List F32) (dist : List F32 → F32)
    (e : InvertedListEntry X) (d : F32) : Prop :=
  if s.cfg.use_pq = true ∧ s.cfg.pq_refine_factor = 0 then
    ∃ pq tables code adc, s.pq = some pq ∧ X.buildQueryTables pq query s.metric = .ok tables ∧
      e.pq_code = some code ∧ X.adcDistance tables code = .ok adc ∧ d = orient s.metric adc
  else d = dist e.vector

/-- A result of at most `k` entries with their distances, out of the candidates. -/
structure ResultOf (s : IvfIndex X) (query : List F32) (dist : List F32 → F32)
    (cands : List (InvertedListEntry X)) (k : ℕ) (out : List (InvertedListEntry X × F32)) :
    Prop where
  /-- There are as many hits as candidates, up to `k`. -/
  length_eq : out.length = min k cands.length
  /-- No id is returned twice. -/
  ids_nodup : (out.map fun p => p.1.id).Nodup
  /-- Every hit is a candidate, and its id is live. -/
  drawn : ∀ p ∈ out, p.1 ∈ cands ∧ p.1.id ∈ s.id_to_cluster
  /-- The hits are in the order of their distances, and those at one distance in insertion order. -/
  ordered : out.Pairwise fun p q => Arith.totalCmp p.2 q.2 = .lt ∨
    Arith.totalCmp p.2 q.2 = .eq ∧ p.1.seq < q.1.seq
  /-- Every distance is that of the entry. -/
  reports : ∀ p ∈ out, s.Reports query dist p.1 p.2

/-- An empty result. -/
theorem ResultOf.nil (h : k = 0 ∨ cands = []) : ResultOf s query dist cands k [] := by
  refine ⟨?_, List.nodup_nil, fun p hp => absurd hp List.not_mem_nil, List.Pairwise.nil,
    fun p hp => absurd hp List.not_mem_nil⟩
  rcases h with rfl | rfl
  · exact (Nat.zero_min _).symm
  · exact (Nat.min_zero _).symm

/-- A selection of candidates at their reported distances is a result. -/
theorem ResultOf.of_selects (hlive : ∀ e ∈ cands, e ∈ s.entries) (h : Inv s)
    (hids : (cands.map (·.id)).Nodup) (hseqs : (cands.map (·.seq)).Nodup)
    {short : List (InvertedListEntry X)} (hshort : short.Subperm cands)
    (hlen : min k short.length = min k cands.length)
    {R : InvertedListEntry X → F32 → Prop} {out : List (InvertedListEntry X × F32)}
    (hout : Ranked R short k out) (hR : ∀ e ∈ cands, ∀ d, R e d → s.Reports query dist e d) :
    ResultOf s query dist cands k out := by
  have hsub : (out.map Prod.fst).Subperm cands := hout.subperm.trans hshort
  have hmem : ∀ p ∈ out, p.1 ∈ cands := fun p hp => hsub.subset (List.mem_map_of_mem hp)
  constructor
  case length_eq => rw [hout.length_eq, hlen]
  case ids_nodup =>
    have hnodup := nodup_map_of_subperm hsub hids
    rwa [List.map_map] at hnodup
  case drawn =>
    intro p hp
    refine ⟨hmem p hp, (h.mem_iff _).2 ?_⟩
    exact List.mem_map_of_mem (hlive p.1 (hmem p hp))
  case ordered => exact hout.pairwise (nodup_map_of_subperm hshort hseqs)
  case reports =>
    intro p hp
    exact hR p.1 (hmem p hp) p.2 (hout.mem hp).2

/-- The clusters that a search probes, under a distance for every centroid. -/
theorem best_centroids (s : IvfIndex X) {exact : List F32 → Option F32}
    (hexact : ∀ v, exact v = some (dist v)) :
    ∃ centroids, best Arith.totalCmp (fun c : List F32 × ℕ => exact c.1) Prod.snd s.cfg.n_probes
      s.centroids.zipIdx = some centroids ∧ centroids.map (fun p => p.1.2) = s.probes dist := by
  refine ⟨_, best_of_total fun c _ => hexact c.1, ?_⟩
  unfold IvfIndex.probes
  rw [List.map_map]
  rfl

/-- The probed clusters are distinct, and as many as `n_probes`. -/
theorem Inv.probes_spec (h : Inv s) (htrained : s.trained = true) (dist : List F32 → F32) :
    (s.probes dist).Nodup ∧ (s.probes dist).length = s.cfg.n_probes := by
  obtain ⟨centroids, hbest, hprobes⟩ := best_centroids s (fun v => (rfl : some (dist v) = _))
  have hprobed : Probed s (fun c d => some (dist c) = some d) (s.probes dist) :=
    probed_iff.2 ⟨centroids, hbest, hprobes.symm⟩
  obtain ⟨hnodup, -, hlen⟩ := hprobed.spec
  refine ⟨hnodup, ?_⟩
  rw [hlen, (h.centroids htrained).length_eq]
  exact Nat.min_eq_left h.valid.n_probes_le

/-- A shortlist is not shorter than what the caller asks for. -/
theorem min_shortlist (factor : UInt32) (hfactor : factor ≠ 0) (k : UInt64) (n : ℕ) :
    min k.toNat (min (saturatingMul factor.toNat k.toNat) n) = min k.toNat n := by
  have hpos : 1 ≤ factor.toNat := by
    rw [Nat.one_le_iff_ne_zero]
    intro hzero
    exact hfactor (UInt32.toNat_inj.1 hzero)
  have hle : k.toNat ≤ saturatingMul factor.toNat k.toNat := by
    have hk : k.toNat < 2^64 := k.toNat_lt
    unfold saturatingMul usizeMax
    rw [le_min_iff]
    exact ⟨Nat.le_mul_of_pos_left _ hpos, by omega⟩
  omega

/-- Under the assumptions on the other crates, the answer of a search is a result. -/
theorem Inv.answer_resultOf (h : Inv s) (htrained : s.trained = true)
    (hadc : ∀ pq, s.pq = some pq → AdcSucceeds X s.metric s.dim pq) (hq : query.length = s.dim)
    {exact : List F32 → Option F32} (hexact : ∀ v, exact v = some (dist v))
    (evaluator : Option X.FilterEvaluator) (k : UInt64) :
    ∃ out, s.answer query exact evaluator k.toNat = some out ∧
      ResultOf s query dist (s.candidates evaluator (s.probes dist)) k.toNat out := by
  obtain ⟨centroids, hbest, hprobes⟩ := best_centroids s hexact
  have hnodup := (h.probes_spec htrained dist).1
  rw [answer_of_probed hbest, hprobes]
  have hlive : ∀ e ∈ s.candidates evaluator (s.probes dist), e ∈ s.entries := by
    exact fun e he => mem_entries_of_candidates he
  have hids := h.candidates_ids evaluator hnodup
  have hseqs := h.candidates_seqs evaluator hnodup
  generalize s.candidates evaluator (s.probes dist) = cands at hlive hids hseqs
  have hexact' : ∀ (es : List (InvertedListEntry X)) n, ∃ out,
      best Arith.totalCmp (fun e : InvertedListEntry X => exact e.vector) (fun e => e.seq) n es =
        some out := fun es n => exists_best fun e _ => by
    rw [hexact]
    exact Option.some_ne_none _
  cases huse : s.cfg.use_pq with
  | false =>
    -- One selection by the exact score.
    rw [plan_of_flat huse, Option.bind_some, Plan.run_direct]
    obtain ⟨out, hout⟩ := hexact' cands k.toNat
    refine ⟨out, hout, .of_selects hlive h hids hseqs (List.Subperm.refl _) rfl
      (selects_iff_best.2 hout) fun e _ d hd => ?_⟩
    unfold IvfIndex.Reports
    rw [huse, if_neg (fun hc => Bool.false_ne_true hc.1)]
    rw [hexact] at hd
    exact (Option.some.inj hd).symm
  | true =>
    obtain ⟨pq, hpq⟩ := h.exists_pq htrained huse
    obtain ⟨tables, hbuild, hlookup⟩ := hadc pq hpq query hq
    have hscore := fun e he => h.exists_adc hpq hlookup (hlive e he)
    have hadc' : ∀ n, ∃ out, best Arith.totalCmp (adcScore X s.metric tables) (fun e => e.seq) n
        cands = some out := fun n => exists_best fun e he => by
      obtain ⟨code, adc, -, -, heq⟩ := hscore e he
      rw [heq]
      exact Option.some_ne_none _
    rw [plan_of_pq huse hpq hbuild, Option.bind_some]
    by_cases hzero : s.cfg.pq_refine_factor = 0
    · -- One selection by the ADC score.
      rw [if_pos hzero, Plan.run_direct]
      obtain ⟨out, hout⟩ := hadc' k.toNat
      refine ⟨out, hout, .of_selects hlive h hids hseqs (List.Subperm.refl _) rfl
        (selects_iff_best.2 hout) fun e he d hd => ?_⟩
      obtain ⟨code, adc, hcode, hadc, heq⟩ := hscore e he
      unfold IvfIndex.Reports
      rw [if_pos ⟨huse, hzero⟩]
      rw [heq] at hd
      exact ⟨pq, tables, code, adc, hpq, hbuild, hcode, hadc, (Option.some.inj hd).symm⟩
    · -- A shortlist by the ADC score, and the selection from it by the exact score.
      rw [if_neg hzero, Plan.run_staged]
      obtain ⟨short, hshort⟩ := hadc' (saturatingMul s.cfg.pq_refine_factor.toNat k.toNat)
      obtain ⟨out, hout⟩ := hexact' (short.map Prod.fst) k.toNat
      have hranked := selects_iff_best.2 hshort
      rw [hshort, Option.bind_some]
      refine ⟨out, hout, .of_selects hlive h hids hseqs hranked.subperm ?_
        (selects_iff_best.2 hout) fun e _ d hd => ?_⟩
      · rw [List.length_map, hranked.length_eq]
        exact min_shortlist _ hzero k _
      · unfold IvfIndex.Reports
        rw [if_neg (fun hc => hzero hc.2)]
        rw [hexact] at hd
        exact (Option.some.inj hd).symm

/-- In every reachable trained state a search with arguments that the index accepts returns a result
of the candidates in the probed clusters, when the distances and the tables succeed. -/
theorem search_hits_wellFormed (hs : Reachable s) (htrained : s.trained = true)
    {score : List F32 → List F32 → F32}
    (hscore : ScoresEach X s.metric s.dim fun query v => some (score query v))
    (hadc : ∀ pq, s.pq = some pq → AdcSucceeds X s.metric s.dim pq) (query : List F32)
    (hq : query.length = s.dim) (params : SearchParams X) (hmetric : params.metric = s.metric)
    {evaluator : Option X.FilterEvaluator} (hfilter : evaluatorOf X params.filter = .ok evaluator) :
    let dist := fun v => orient s.metric (score query v)
    (s.probes dist).Nodup ∧ (s.probes dist).length = s.cfg.n_probes ∧
    ∃ out, s.search query params = .ok (out.map hitOf) ∧
      ResultOf s query dist (s.candidates evaluator (s.probes dist)) params.k.toNat out := by
  intro dist
  have h := hs.inv
  have hprobes := h.probes_spec htrained dist
  refine ⟨hprobes.1, hprobes.2, ?_⟩
  rcases search_cases_of_valid htrained hq hmetric hfilter with ⟨hstop, hsearch⟩ | hr
  · -- The search stops early because `k` is zero or the index is empty.
    refine ⟨[], hsearch, .nil ?_⟩
    rcases hstop with hk | hlive
    · left
      rw [hk]
      rfl
    · right
      have hentries : s.entries = [] := by
        rw [← List.length_eq_zero_iff, ← h.live_count, hlive]
      apply List.eq_nil_iff_forall_not_mem.2
      intro e he
      have hmem := mem_entries_of_candidates he
      rw [hentries] at hmem
      exact List.not_mem_nil hmem
  · -- The search reaches its passes, which answer from the view of the index.
    have hexact : ∀ v, exactScore s.metric (fun query v => some (score query v)) query v =
        some (dist v) := fun v => rfl
    obtain ⟨out, hout, hresult⟩ := h.answer_resultOf htrained hadc hq hexact evaluator params.k
    refine ⟨out, (search_eq_ok_iff h hscore hr).2 ?_, hresult⟩
    rw [hout]
    rfl

/-- A search of the IVF-PQ index for more items than it has. -/
theorem pqState_search_hits :
    (pqState.trained = true ∧ pqState.live_count = 2) ∧
    ((pqState.probes fun v => orient pqState.metric (manhattan [4] v)).Nodup ∧
    (pqState.probes fun v => orient pqState.metric (manhattan [4] v)).length =
      pqState.cfg.n_probes ∧
    ∃ out, pqState.search [4] ⟨7, .manhattan, none⟩ = .ok (out.map hitOf) ∧
      ResultOf pqState [4] (fun v => orient pqState.metric (manhattan [4] v))
        (pqState.candidates none (pqState.probes fun v => orient pqState.metric (manhattan [4] v)))
        7 out) := by
  have hdim : pqState.dim = 1 := by decide +kernel
  have hmetric : pqState.metric = .manhattan := by decide +kernel
  have hscore : ScoresEach crates pqState.metric pqState.dim
      fun query v => some (manhattan query v) := manhattan_scoresEach hmetric
  have hadc : ∀ pq, pqState.pq = some pq → AdcSucceeds crates pqState.metric pqState.dim pq := by
    rw [hdim, hmetric]
    exact pqState_adcSucceeds
  exact ⟨by decide +kernel, search_hits_wellFormed pqState_reachable (by decide +kernel) hscore hadc
    [4] hdim.symm ⟨7, .manhattan, none⟩ hmetric.symm rfl⟩

end IqdbIvf
