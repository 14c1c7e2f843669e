import IqdbIvf.Spec.Filtering
import IqdbIvf.Spec.Probing
import IqdbIvf.Spec.Selected

/-!
# Narrowing a search

Deleting items, probing fewer clusters and asking for a stronger filter all leave fewer candidates.
Where the hits carry the scores by which they were selected, in IVF-Flat and in IVF-PQ without a
refine factor, the remaining ones are then served first and in the same order, with nothing between
them (`narrowing_promotes_hits`): what comes behind them only fills the room that was left. So an
index may be split by deleting, and the hits of the parts merged: no hit of the whole is missing
from them.
-/

set_option linter.unusedSectionVars false

namespace IqdbIvf

open Outcome Ranking Selection Rational IvfIndex

variable {F32 : Type} [Arith F32] {X : Crates F32} {s t u : IvfIndex X} {v : View X}
  {query : List F32} {exact : List F32 → Option F32}
  {evaluator evaluator' : Option X.FilterEvaluator} {k p : ℕ} {keep : Item X → Bool}
  {probed probed' : List ℕ} {out : List ((Item X × ℕ) × F32)}

namespace View

/-- The view with some of the items only, and another number of probes. -/
def narrowed (v : View X) (p : ℕ) (keep : Item X → Bool) : View X :=
  { v with cfg := { v.cfg with n_probes := p }, items := v.items.filter keep }

/-- What remains of the candidates: kept items of the probed clusters that satisfy the filter. -/
def remains (v : View X) (keep : Item X → Bool) (evaluator : Option X.FilterEvaluator)
    (probed : List ℕ) (item : Item X) : Bool :=
  keep item &&
    (decide (nearest v.centroids item.vector ∈ probed) && keeps X evaluator item.metadata)

/-- Fewer probes are the first of the clusters that were probed. -/
theorem probed_narrowed (hle : p ≤ v.cfg.n_probes) (h : v.probed exact = some probed) :
    (v.narrowed p keep).probed exact = some (probed.take p) := by
  obtain ⟨centroids, hbest, rfl⟩ := Option.map_eq_some_iff.1 h
  show Option.map _ (best _ _ _ p v.centroids.zipIdx) = _
  rw [best_take hle, hbest, Option.map_some, Option.map_some, List.map_take]

/-- The candidates of the narrowed view are those that remain, in the same order. -/
theorem candidates_narrowed (hsub : probed' ⊆ probed)
    (hstronger : ∀ m, keeps X evaluator' m = true → keeps X evaluator m = true) :
    ((v.candidates evaluator probed).filter fun q =>
        v.remains keep evaluator' probed' q.1).map Prod.fst =
      ((v.narrowed p keep).candidates evaluator' probed').map Prod.fst := by
  have hnarrowed : ((v.narrowed p keep).candidates evaluator' probed').map Prod.fst =
      (v.items.filter keep).filter fun item =>
        decide (nearest v.centroids item.vector ∈ probed') && keeps X evaluator' item.metadata :=
    map_fst_filter_zipIdx (v.items.filter keep) fun item =>
      decide (nearest v.centroids item.vector ∈ probed') && keeps X evaluator' item.metadata
  have hremains : ((v.candidates evaluator probed).filter fun q =>
      v.remains keep evaluator' probed' q.1).map Prod.fst =
      v.items.filter (v.remains keep evaluator' probed') := by
    rw [← map_fst_filter_zipIdx v.items (v.remains keep evaluator' probed')]
    unfold candidates
    rw [List.filter_filter]
    congr 1
    apply List.filter_congr
    intro q _
    -- What remains was a candidate before.
    rw [Bool.and_eq_left_iff_imp]
    unfold remains
    simp only [Bool.and_eq_true, decide_eq_true_eq]
    rintro ⟨-, hprobed, hkeeps⟩
    exact ⟨hsub hprobed, hstronger _ hkeeps⟩
  rw [hremains, hnarrowed, List.filter_filter]
  apply List.filter_congr
  intro item _
  exact Bool.and_comm _ _

/-- A direct selection, narrowed, starts with what remains of it. -/
theorem selected_narrowed (hdirect : v.Direct) (hle : p ≤ v.cfg.n_probes)
    (hstronger : ∀ m, keeps X evaluator' m = true → keeps X evaluator m = true)
    (h : v.selected query exact evaluator k = some out)
    (hprobed' : (v.narrowed p keep).probed exact = some probed') :
    ∃ out', (v.narrowed p keep).selected query exact evaluator' k = some out' ∧
      (out.filter fun r => v.remains keep evaluator' probed' r.1.1).map (fun r => (r.1.1, r.2)) <+:
        out'.map fun r => (r.1.1, r.2) := by
  obtain ⟨probed, plan, hprobed, hplan, hrun⟩ := selected_eq_some_iff.1 h
  have hsub : probed' ⊆ probed := by
    rw [probed_narrowed hle hprobed] at hprobed'
    obtain rfl := Option.some.inj hprobed'
    exact List.take_subset p probed
  have hscore : ∃ score : List F32 → Option F32,
      ∀ k, v.plan query exact k = some (.direct fun q => score q.1.vector) := by
    rcases v.plan_cases query exact with hnone | hscore | ⟨hreranked, -⟩
    · rw [hnone] at hplan
      cases hplan
    · exact hscore
    · exact absurd hdirect hreranked
  obtain ⟨score, hscore⟩ := hscore
  rw [hscore] at hplan
  obtain rfl := Option.some.inj hplan
  -- Both selections go by one score, over lists with the same items in the same order.
  obtain ⟨middle, hmiddle, hprefix⟩ := best_filter (v.candidates_nodup evaluator probed) hrun
    fun q => v.remains keep evaluator' probed' q.1
  have hnumbered : some (middle.map fun r => (r.1.1, r.2)) =
      (best Arith.totalCmp (fun q : Item X × ℕ => score q.1.vector) Prod.snd k
        ((v.narrowed p keep).candidates evaluator' probed')).map
          (List.map fun r => (r.1.1, r.2)) := by
    rw [← Option.map_some, ← hmiddle]
    exact Plan.run_numbered ((v.candidates_positions evaluator probed).filter _)
      ((v.narrowed p keep).candidates_positions evaluator' probed')
      (candidates_narrowed hsub hstronger) (.direct fun item => score item.vector)
  obtain ⟨out', hout', heq⟩ := Option.map_eq_some_iff.1 hnumbered.symm
  refine ⟨out', selected_eq_some_iff.2 ⟨probed', _, hprobed', hscore k, hout'⟩, ?_⟩
  rw [heq]
  exact hprefix.map _

end View

/-- The view after deletes and with fewer probes. -/
theorem Inv.view_narrowed (h : Inv s) {ids : List X.VectorId} {rs : List (Except IqdbError Unit)}
    (hdeletes : calls (ids.map Op.delete) s = .ok (rs, t)) (hp : 1 ≤ p)
    (hle : p ≤ s.cfg.n_probes) (hset : call (.setNProbes p) t = .ok (.ok (), u)) :
    u.view = s.view.narrowed p fun item => item.id ∉ ids := by
  have hrun := transitions_of_calls h hdeletes
  have hedits : Transitions s ((ids.map Edit.delete).map Edit.op) rs t := by
    rw [List.map_map]
    exact hrun
  have hview : t.view = { s.view with items := s.items.filter fun item => item.id ∉ ids } := by
    rw [hedits.view_edits, hrun.items_of_deletes]
  have hclusters : p ≤ t.cfg.n_clusters := by
    have hcfg : t.cfg = s.cfg := congrArg View.cfg hview
    rw [hcfg]
    exact hle.trans h.valid.n_probes_le
  rw [hrun.inv.setNProbes_ok hp hclusters] at hset
  obtain rfl := (Prod.mk.inj (Except.ok.inj hset)).2
  have hprobes : (t.withProbes p).view = { t.view with cfg := { t.view.cfg with n_probes := p } } :=
    rfl
  rw [hprobes, hview]
  rfl

/-- The clusters that a view probes, under a distance for every centroid. -/
theorem view_probed (s : IvfIndex X) {dist : List F32 → F32}
    (hexact : ∀ v, exact v = some (dist v)) :
    s.view.probed exact = some (s.probes dist) := by
  obtain ⟨centroids, hbest, hprobes⟩ := best_centroids s hexact
  show Option.map _ (best _ _ _ s.cfg.n_probes s.centroids.zipIdx) = _
  rw [hbest, Option.map_some, hprobes]

/-- Deleting items, probing fewer clusters and asking for a stronger filter promote the hits that
remain: without a rerank, they are served first, in the order and at the distances in which they
were served before. -/
theorem narrowing_promotes_hits (hs : Reachable s)
    (hdirect : s.cfg.use_pq = false ∨ s.cfg.pq_refine_factor = 0)
    {score : List F32 → List F32 → F32}
    (hscore : ScoresEach X s.metric s.dim fun query v => some (score query v))
    {ids : List X.VectorId} {rs : List (Except IqdbError Unit)}
    (hdeletes : calls (ids.map Op.delete) s = .ok (rs, t)) {p : ℕ} (hp : 1 ≤ p)
    (hle : p ≤ s.cfg.n_probes) (hset : call (.setNProbes p) t = .ok (.ok (), u))
    {query : List F32} {params params' : SearchParams X} (hk : params'.k = params.k)
    (hmetric : params'.metric = params.metric) {evaluator evaluator' : Option X.FilterEvaluator}
    (hfilter : evaluatorOf X params.filter = .ok evaluator)
    (hfilter' : evaluatorOf X params'.filter = .ok evaluator')
    (hstronger : ∀ m, keeps X evaluator' m = true → keeps X evaluator m = true)
    {hits : List (Hit X)} (hsearch : s.search query params = .ok hits) :
    ∃ (probed : List ℕ) (found found' : List (Item X × F32)),
      rankCentroids u query = .ok probed ∧
      hits = found.map View.hitOfItem ∧ (∀ r ∈ found, r.1 ∈ s.items) ∧
      u.search query params' = .ok (found'.map View.hitOfItem) ∧ (∀ r ∈ found', r.1 ∈ u.items) ∧
      (found.filter fun r =>
        s.view.remains (fun item => item.id ∉ ids) evaluator' probed r.1) <+: found' := by
  have h := hs.inv
  have hview := h.view_narrowed hdeletes hp hle hset
  have hu : Inv u := (transition_of_call (transitions_of_calls h hdeletes).inv hset).inv
    (transitions_of_calls h hdeletes).inv
  have hitems : u.items = s.items.filter fun item => item.id ∉ ids := congrArg View.items hview
  have hudim : u.dim = s.dim := congrArg View.dim hview
  have humetric : u.metric = s.metric := congrArg View.metric hview
  have hutrained : u.trained = s.trained := congrArg View.trained hview
  have hscore' : ScoresEach X u.metric u.dim fun query v => some (score query v) := by
    rw [hudim, humetric]
    exact hscore
  let exact := exactScore s.metric (fun query v => some (score query v)) query
  have hexact : ∀ v, exact v = some (orient u.metric (score query v)) := by
    intro v
    rw [humetric]
    rfl
  obtain ⟨⟨htrained, hdim, hmetric'⟩, hcases⟩ := h.search_ok_cases hscore hsearch
  rw [← hudim] at hdim
  rw [← hmetric, ← humetric] at hmetric'
  have hrank := hu.rankCentroids_eq (hutrained.trans htrained) hscore' hdim
  have hprobed := view_probed u hexact
  rcases search_cases_of_valid (hutrained.trans htrained) hdim hmetric' hfilter' with
    ⟨hstop, hnil⟩ | hr'
  · -- Nothing of the index is left, or nothing was asked for.
    rcases hcases with ⟨-, rfl⟩ | ⟨evaluator₀, out, hr, hout, rfl⟩
    · exact ⟨_, [], [], hrank, rfl, nofun, hnil, nofun, List.prefix_rfl⟩
    · have hmem : ∀ r ∈ out.map (fun r => (r.1.1, r.2)), r.1 ∈ s.items := by
        intro r hr
        obtain ⟨q, hq, rfl⟩ := List.mem_map.1 hr
        exact List.mem_of_getElem? (View.mem_selected hout hq).1
      have hempty : u.items = [] := by
        rcases hstop with hzero | hlive
        · exact absurd (hk.symm.trans hzero) hr.k_ne_zero
        · exact hu.live_count_eq_zero_iff.1 hlive
      refine ⟨_, _, [], hrank, ?_, hmem, hnil, nofun, ?_⟩
      · rw [List.map_map]
        rfl
      · apply List.prefix_nil.2
        rw [List.filter_eq_nil_iff]
        intro r hr hremains
        -- A hit that remains would be an item of the emptied index.
        have hitem : r.1 ∈ u.items := by
          rw [hitems, List.mem_filter]
          exact ⟨hmem r hr, (Bool.and_eq_true_iff.1 hremains).1⟩
        rw [hempty] at hitem
        exact List.not_mem_nil hitem
  · rcases hcases with ⟨hstop, -⟩ | ⟨evaluator₀, out, hr, hout, rfl⟩
    · -- The narrowed index has items, so the index has some.
      rcases hstop with hzero | hempty
      · exact absurd (hk.trans hzero) hr'.k_ne_zero
      · rw [hempty] at hitems
        exact absurd (hu.live_count_eq_zero_iff.2 hitems) hr'.live
    · obtain rfl : evaluator₀ = evaluator := Except.ok.inj (hr.filter.symm.trans hfilter)
      rw [hview] at hprobed
      have hdirect' : s.view.Direct := hdirect
      obtain ⟨out', hout', hprefix⟩ := View.selected_narrowed hdirect' hle hstronger hout hprobed
      rw [← hk, ← hview] at hout'
      have hsearch' := hu.search_of_selected hscore' hr' (by rw [humetric]; exact hout')
      refine ⟨_, out.map fun r => (r.1.1, r.2), out'.map fun r => (r.1.1, r.2), hrank, ?_, ?_, ?_,
        ?_, ?_⟩
      · rw [List.map_map]
        rfl
      · intro r hr
        obtain ⟨q, hq, rfl⟩ := List.mem_map.1 hr
        exact List.mem_of_getElem? (View.mem_selected hout hq).1
      · rw [hsearch', List.map_map]
        rfl
      · intro r hr
        obtain ⟨q, hq, rfl⟩ := List.mem_map.1 hr
        exact List.mem_of_getElem? (View.mem_selected hout' hq).1
      · rw [List.filter_map]
        exact hprefix

/-- The two-cluster index without one of its items. -/
def flatNarrowed : IvfIndex crates := flatState.after ([4].map .delete)

/-- A search of the two-cluster index before and after a delete, at last with one probe. -/
theorem flatState_narrowing :
    ∃ hits, flatState.search [4] ⟨2, .manhattan, none⟩ = .ok hits ∧
      ∃ (probed : List ℕ) (found found' : List (Item crates × ℚ)),
        rankCentroids (flatNarrowed.withProbes 1) [4] = .ok probed ∧
        hits = found.map View.hitOfItem ∧ (∀ r ∈ found, r.1 ∈ flatState.items) ∧
        (flatNarrowed.withProbes 1).search [4] ⟨2, .manhattan, none⟩ =
          .ok (found'.map View.hitOfItem) ∧
        (∀ r ∈ found', r.1 ∈ (flatNarrowed.withProbes 1).items) ∧
        (found.filter fun r =>
          flatState.view.remains (fun item => item.id ∉ [4]) none probed r.1) <+: found' := by
  have hmetric : flatState.metric = .manhattan := by decide +kernel
  have hscore : ScoresEach crates flatState.metric flatState.dim
      fun query v => some (manhattan query v) := manhattan_scoresEach hmetric
  have hdeletes := flatState_reachable.inv.calls_results ([4].map .delete)
  have hnarrowed : Reachable flatNarrowed := flatState_reachable.after _
  have hset := hnarrowed.inv.setNProbes_ok (Nat.le_refl 1) (by decide +kernel)
  let params : SearchParams crates := ⟨2, .manhattan, none⟩
  have hfilter : evaluatorOf crates params.filter = .ok none := rfl
  have hreturns : (flatState.search [4] params).isOk = true := by decide +kernel
  cases hsearch : flatState.search [4] params with
  | error f =>
    rw [hsearch] at hreturns
    cases hreturns
  | ok hits =>
    have hflat : flatState.cfg.use_pq = false := by decide +kernel
    exact ⟨hits, rfl, narrowing_promotes_hits flatState_reachable (.inl hflat) hscore hdeletes
      (Nat.le_refl 1) (by decide +kernel) hset (rfl : params.k = params.k)
      (rfl : params.metric = params.metric) hfilter hfilter (fun _ => id) hsearch⟩

end IqdbIvf
