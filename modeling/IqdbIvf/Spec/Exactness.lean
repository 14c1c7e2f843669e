import IqdbIvf.Spec.Refining
import IqdbIvf.Lib.Fronts

/-!
# The recall of a reranked search

What a rerank can lose it loses in the shortlist: a true neighbour is found exactly when it is on
the shortlist, and the hits are those of the exact search of the same clusters exactly when nothing
of these is missing from it (`reranked_recall`). In particular nothing is lost when the codes rank
the candidates as their vectors do, however short the list is (`reranked_exact_of_agreement`).
-/

set_option linter.unusedSectionVars false

namespace IqdbIvf

open Outcome Ranking Selection Rational IvfIndex

variable {F32 : Type} [Arith F32] {X : Crates F32} {s : IvfIndex X} {query : List F32}
  {dist : List F32 → F32} {evaluator : Option X.FilterEvaluator} {k : ℕ}

/-- The exact top `k` of the probed clusters: what an IVF-Flat search of them finds. -/
def IvfIndex.probedNeighbours (s : IvfIndex X) (dist : List F32 → F32)
    (evaluator : Option X.FilterEvaluator) (k : ℕ) : List (InvertedListEntry X) :=
  (ranked dist (s.candidates evaluator (s.probes dist))).take k

/-- The shortlist of a search: the best candidates by their codes. -/
def IvfIndex.shortlist (s : IvfIndex X) (tables : X.PqAdcTables) (dist : List F32 → F32)
    (evaluator : Option X.FilterEvaluator) (k : ℕ) : Option (List (InvertedListEntry X)) :=
  (best Arith.totalCmp (adcScore X s.metric tables) (fun e => e.seq)
    (saturatingMul s.cfg.pq_refine_factor.toNat k)
    (s.candidates evaluator (s.probes dist))).map (List.map Prod.fst)

section Rerank

variable {score : List F32 → List F32 → F32} {params : SearchParams X}
  {tables : X.PqAdcTables} {short : List (InvertedListEntry X)}

/-- A reranked search returns the best of its shortlist, at the exact distances. -/
theorem Inv.search_reranked (h : Inv s) (htrained : s.trained = true) (huse : s.cfg.use_pq = true)
    (hfactor : s.cfg.pq_refine_factor ≠ 0)
    (hscore : ScoresEach X s.metric s.dim fun query v => some (score query v))
    (hq : query.length = s.dim) (hmetric : params.metric = s.metric)
    (hfilter : evaluatorOf X params.filter = .ok evaluator) {pq : X.ProductQuantizer}
    (hpq : s.pq = some pq) (hbuild : X.buildQueryTables pq query s.metric = .ok tables)
    (hshort : s.shortlist tables (fun v => orient s.metric (score query v)) evaluator
      params.k.toNat = some short) :
    s.search query params = .ok (((ranked (fun v => orient s.metric (score query v)) short).take
      params.k.toNat).map (exactHit fun v => orient s.metric (score query v))) := by
  obtain ⟨picked, hpicked, rfl⟩ := Option.map_eq_some_iff.1 hshort
  rcases search_cases_of_valid htrained hq hmetric hfilter with ⟨hstop, hsearch⟩ | hr
  · rw [hsearch]
    rcases hstop with hk | hlive
    · rw [hk]
      rfl
    · rw [h.candidates_of_empty hlive] at hpicked
      have hnil := List.subperm_nil.1 (subperm_of_best hpicked)
      rw [hnil]
      unfold ranked rank
      rw [sort_nil, List.take_nil]
      rfl
  · refine (h.search_pq_iff huse hscore hr).2 ⟨pq, tables, _, hpq, hbuild,
      .reranked hfactor hpicked, ?_⟩
    rw [List.map_map]
    rfl

/-- The shortlist is part of the candidates, and of the survivors. -/
theorem Inv.shortlist_subperm (h : Inv s) (htrained : s.trained = true)
    (hshort : s.shortlist tables dist evaluator k = some short) :
    short.Subperm (s.candidates evaluator (s.probes dist)) ∧
      short.Subperm (s.survivors evaluator) := by
  obtain ⟨picked, hpicked, rfl⟩ := Option.map_eq_some_iff.1 hshort
  have hsub := subperm_of_best hpicked
  have hnodup := (h.probes_spec htrained dist).1
  exact ⟨hsub, hsub.trans (h.candidates_subperm hnodup (List.Subset.refl _)).2⟩

/-- A shortlist that holds the exact top `k` of the probed clusters gives it. -/
theorem Inv.take_ranked_of_short (h : Inv s) (htrained : s.trained = true)
    (hshort : s.shortlist tables dist evaluator k = some short)
    (hall : ∀ e ∈ s.probedNeighbours dist evaluator k, e ∈ short) :
    (ranked dist short).take k = s.probedNeighbours dist evaluator k :=
  take_rank_of_part (h.candidates_seqs evaluator (h.probes_spec htrained dist).1)
    (h.shortlist_subperm htrained hshort).1 hall

/-- What a reranked search finds is what the shortlist lets through: candidates of the probed
clusters, at their exact distances. A true neighbour is found exactly when it is on the shortlist,
and the exact top `k` of the probed clusters is found exactly when all of it is. -/
theorem reranked_recall (hs : Reachable s) (htrained : s.trained = true)
    (huse : s.cfg.use_pq = true) (hfactor : s.cfg.pq_refine_factor ≠ 0)
    {score : List F32 → List F32 → F32}
    (hscore : ScoresEach X s.metric s.dim fun query v => some (score query v)) {query : List F32}
    (hq : query.length = s.dim) {params : SearchParams X} (hmetric : params.metric = s.metric)
    {evaluator : Option X.FilterEvaluator} (hfilter : evaluatorOf X params.filter = .ok evaluator)
    {pq : X.ProductQuantizer} (hpq : s.pq = some pq) {tables : X.PqAdcTables}
    (hbuild : X.buildQueryTables pq query s.metric = .ok tables)
    {short : List (InvertedListEntry X)}
    (hshort : s.shortlist tables (fun v => orient s.metric (score query v)) evaluator
      params.k.toNat = some short) :
    let dist := fun v => orient s.metric (score query v)
    ∃ found : List (InvertedListEntry X),
      s.search query params = .ok (found.map (exactHit dist)) ∧
      (∀ e ∈ found, e ∈ s.candidates evaluator (s.probes dist)) ∧
      (∀ e ∈ s.neighbours dist evaluator params.k.toNat, e ∈ found ↔ e ∈ short) ∧
      (found = s.probedNeighbours dist evaluator params.k.toNat ↔
        ∀ e ∈ s.probedNeighbours dist evaluator params.k.toNat, e ∈ short) := by
  intro dist
  have h := hs.inv
  obtain ⟨hcands, hsurvivors⟩ := h.shortlist_subperm htrained hshort
  refine ⟨_, h.search_reranked htrained huse hfactor hscore hq hmetric hfilter hpq hbuild hshort,
    fun e he => hcands.subset (mem_rank.1 (List.mem_of_mem_take he)),
    fun e he => ⟨fun hfound => ?_, fun hmem => ?_⟩, fun heq e he => ?_, fun hall => ?_⟩
  · exact mem_rank.1 (List.mem_of_mem_take hfound)
  · exact mem_reranked (h.survivors_seqs evaluator) hsurvivors hmem he
  · rw [← heq] at he
    exact mem_rank.1 (List.mem_of_mem_take he)
  · exact h.take_ranked_of_short htrained hshort hall

/-- Ranking by two scores that compare the elements alike. -/
theorem ranked_congr {f g : InvertedListEntry X → F32} {es : List (InvertedListEntry X)}
    (h : ∀ a ∈ es, ∀ b ∈ es, Arith.totalCmp (f a) (f b) = Arith.totalCmp (g a) (g b)) :
    rank Arith.totalCmp f (fun e => e.seq) es = rank Arith.totalCmp g (fun e => e.seq) es := by
  have hmap : (rank Arith.totalCmp f (fun e => e.seq) es).map id =
      rank Arith.totalCmp g (fun e => e.seq) (es.map id) :=
    map_sort id es fun a ha b hb => by
      rw [rankCmp, h a ha b hb]
      rfl
  rw [List.map_id, List.map_id] at hmap
  exact hmap

/-- When the codes rank the candidates as their vectors do, a reranked search finds the exact top
`k` of the probed clusters, whatever its factor is. -/
theorem reranked_exact_of_agreement (hs : Reachable s) (htrained : s.trained = true)
    (huse : s.cfg.use_pq = true) (hfactor : s.cfg.pq_refine_factor ≠ 0)
    {score : List F32 → List F32 → F32}
    (hscore : ScoresEach X s.metric s.dim fun query v => some (score query v)) {query : List F32}
    (hq : query.length = s.dim) {params : SearchParams X} (hmetric : params.metric = s.metric)
    {evaluator : Option X.FilterEvaluator} (hfilter : evaluatorOf X params.filter = .ok evaluator)
    {pq : X.ProductQuantizer} (hpq : s.pq = some pq) {tables : X.PqAdcTables}
    (hbuild : X.buildQueryTables pq query s.metric = .ok tables)
    {adc : InvertedListEntry X → F32}
    (hadc : ∀ e ∈ s.entries, adcScore X s.metric tables e = some (adc e))
    (hagree : ∀ a ∈ s.entries, ∀ b ∈ s.entries, Arith.totalCmp (adc a) (adc b) =
      Arith.totalCmp (orient s.metric (score query a.vector))
        (orient s.metric (score query b.vector))) :
    let dist := fun v => orient s.metric (score query v)
    s.search query params =
      .ok ((s.probedNeighbours dist evaluator params.k.toNat).map (exactHit dist)) := by
  intro dist
  have h := hs.inv
  have hlive : ∀ e ∈ s.candidates evaluator (s.probes dist), e ∈ s.entries :=
    fun e => mem_entries_of_candidates
  have hrank : rank Arith.totalCmp adc (fun e => e.seq) (s.candidates evaluator (s.probes dist)) =
      ranked dist (s.candidates evaluator (s.probes dist)) :=
    ranked_congr fun a ha b hb => hagree a (hlive a ha) b (hlive b hb)
  have hpos : 1 ≤ s.cfg.pq_refine_factor.toNat := by
    rw [Nat.one_le_iff_ne_zero]
    exact fun hzero => hfactor (UInt32.toNat_inj.1 hzero)
  -- The shortlist is a front of the exact ranking, and not shorter than what is asked for.
  have hshort : s.shortlist tables dist evaluator params.k.toNat =
      some ((ranked dist (s.candidates evaluator (s.probes dist))).take
        (saturatingMul s.cfg.pq_refine_factor.toNat params.k.toNat)) := by
    unfold IvfIndex.shortlist
    rw [best_of_total fun e he => hadc e (hlive e he), hrank, Option.map_some, List.map_map]
    exact congrArg some (List.map_id _)
  rw [h.search_reranked htrained huse hfactor hscore hq hmetric hfilter hpq hbuild hshort,
    h.take_ranked_of_short htrained hshort]
  intro e he
  exact (List.take_sublist_take_left (le_saturatingMul hpos params.k)).subset he

end Rerank

/-- The exact clusters of the IVF-PQ index, one hit and its shortlist. -/
theorem pqState_recall :
    ∃ pq tables short, pqState.pq = some pq ∧
      crates.buildQueryTables pq [4] pqState.metric = .ok tables ∧
      let dist := fun v => orient pqState.metric (manhattan [4] v)
      pqState.shortlist tables dist none 1 = some short ∧
      ∃ found : List (InvertedListEntry crates),
        pqState.search [4] ⟨1, .manhattan, none⟩ = .ok (found.map (exactHit dist)) ∧
        (∀ e ∈ found, e ∈ pqState.candidates none (pqState.probes dist)) ∧
        (∀ e ∈ pqState.neighbours dist none 1, e ∈ found ↔ e ∈ short) ∧
        (found = pqState.probedNeighbours dist none 1 ↔
          ∀ e ∈ pqState.probedNeighbours dist none 1, e ∈ short) := by
  have hmetric : pqState.metric = .manhattan := by decide +kernel
  have hdim : pqState.dim = 1 := by decide +kernel
  have hscore : ScoresEach crates pqState.metric pqState.dim
      fun query v => some (manhattan query v) := manhattan_scoresEach hmetric
  have hq : [(4 : ℚ)].length = pqState.dim := hdim.symm
  let params : SearchParams crates := ⟨1, .manhattan, none⟩
  have hparams : params.metric = pqState.metric := hmetric.symm
  have hfilter : evaluatorOf crates params.filter = .ok none := rfl
  obtain ⟨tables, hbuild, hlookup⟩ := pqState_adcSucceeds _ pqState_pq [4] rfl
  rw [← hmetric] at hbuild
  rw [← hdim] at hlookup
  have hadc : ∀ e ∈ pqState.candidates none
      (pqState.probes fun v => orient pqState.metric (manhattan [4] v)),
      adcScore crates pqState.metric tables e ≠ none := by
    intro e he hnone
    obtain ⟨code, adc, -, -, hsome⟩ := pqState_reachable.inv.exists_adc pqState_pq hlookup
      (mem_entries_of_candidates he)
    rw [hnone] at hsome
    cases hsome
  obtain ⟨picked, hpicked⟩ := exists_best hadc
  have hshort : pqState.shortlist tables (fun v => orient pqState.metric (manhattan [4] v)) none
      params.k.toNat = some (picked.map Prod.fst) := by
    unfold IvfIndex.shortlist
    rw [hpicked]
    rfl
  exact ⟨_, tables, _, pqState_pq, hbuild, hshort, reranked_recall pqState_reachable
    (by decide +kernel) (by decide +kernel) (by decide +kernel) hscore hq hparams hfilter pqState_pq
    hbuild hshort⟩

/-- A training sample that holds the vectors of the items. -/
def exactSample : Slice (List ℚ) :=
  ⟨[1] :: [9] :: List.replicate 254 [0], by
    rw [List.length_cons, List.length_cons, List.length_replicate]
    decide⟩

/-- The IVF-PQ index with a codebook that reproduces its items. -/
def losslessState : IvfIndex crates :=
  pqIndex.after [.train exactSample, .insert 3 [1] none, .insert 4 [9] (some 5)]

/-- Its codes rank the items as their vectors do, so one candidate is shortlist enough. -/
theorem losslessState_exact :
    let dist := fun v => orient losslessState.metric (manhattan [4] v)
    losslessState.search [4] ⟨1, .manhattan, none⟩ =
      .ok ((losslessState.probedNeighbours dist none 1).map (exactHit dist)) := by
  have hreach : Reachable losslessState := (Reachable.new pqIndex_new).after _
  have hmetric : losslessState.metric = .manhattan := by decide +kernel
  have hdim : losslessState.dim = 1 := by decide +kernel
  have hscore : ScoresEach crates losslessState.metric losslessState.dim
      fun query v => some (manhattan query v) := manhattan_scoresEach hmetric
  have hq : [(4 : ℚ)].length = losslessState.dim := hdim.symm
  let params : SearchParams crates := ⟨1, .manhattan, none⟩
  have hparams : params.metric = losslessState.metric := hmetric.symm
  have hfilter : evaluatorOf crates params.filter = .ok none := rfl
  have hpq : losslessState.pq = some exactSample.1 := by decide +kernel
  let tables : List ℚ := exactSample.1.map (manhattan [4])
  have hbuild : crates.buildQueryTables exactSample.1 [4] losslessState.metric = .ok tables := by
    rw [hmetric]
    have htables : exactSample.1.mapM (distance .manhattan [4]) = some tables := List.mapM_pure
    dsimp only [crates]
    rw [htables]
  have hadc : ∀ e ∈ losslessState.entries, adcScore crates losslessState.metric tables e =
      some (manhattan [4] e.vector) := by decide +kernel
  exact reranked_exact_of_agreement hreach (by decide +kernel) (by decide +kernel)
    (by decide +kernel) hscore hq hparams hfilter hpq hbuild hadc (by
      intro a _ b _
      rw [hmetric]
      rfl)

end IqdbIvf
