import IqdbIvf.Spec.History

/-!
# Filtering is deleting

A search with a filter returns what a search without one returns on the index from which the items
that fail the filter have been deleted (`filter_eq_delete`). Both select, by one plan, among the
surviving items of the probed clusters in insertion order. The positions by which ties are broken
are counted among all items in one case and among the survivors in the other, which makes no
difference (`Plan.run_numbered`).
-/

set_option linter.unusedSectionVars false

namespace IqdbIvf

open Outcome Ranking Selection Rational

variable {F32 : Type} [Arith F32] {X : Crates F32} {s t : IvfIndex X} {query : List F32}
  {exact : List F32 → Option F32} {k : ℕ}

namespace View

/-- The view without the items that fail a filter. -/
def surviving (v : View X) (eval : X.FilterEvaluator) : View X :=
  { v with items := v.items.filter fun item => X.evaluate eval item.metadata }

/-- The hit for an item at a distance, without its position. -/
def hitOfItem (r : Item X × F32) : Hit X := ⟨r.1.id, r.2, r.1.metadata⟩

/-- A plan of a view selects positioned items by their items. -/
theorem plan_eq_comap (v : View X) (query : List F32) (exact : List F32 → Option F32) (k : ℕ) :
    v.plan query exact k = none ∨
      ∃ plan : Plan (Item X) F32, v.plan query exact k = some (plan.comap Prod.fst) := by
  unfold plan
  cases v.cfg.use_pq with
  | false => exact .inr ⟨.direct fun item => exact item.vector, rfl⟩
  | true =>
    cases v.pq with
    | none => exact .inl rfl
    | some pq =>
      cases hbuild : X.buildQueryTables pq query v.metric with
      | error e =>
        left
        simp only [if_true, Option.bind_eq_bind, Option.bind_some, hbuild]
        rfl
      | ok tables =>
        right
        simp only [if_true, Option.bind_eq_bind, Option.bind_some, hbuild, Except.toOption]
        split_ifs
        · exact ⟨.direct (adc X v.metric pq tables), rfl⟩
        · exact ⟨.staged (adc X v.metric pq tables) (fun item => exact item.vector)
            (saturatingMul v.cfg.pq_refine_factor.toNat k), rfl⟩

/-- The candidates under a filter are those among the surviving items, in the same order. -/
theorem candidates_surviving (v : View X) (eval : X.FilterEvaluator) (probed : List ℕ) :
    (v.candidates (some eval) probed).map Prod.fst =
      ((v.surviving eval).candidates none probed).map Prod.fst := by
  have hfiltered : (v.candidates (some eval) probed).map Prod.fst = v.items.filter fun item =>
      decide (nearest v.centroids item.vector ∈ probed) && X.evaluate eval item.metadata :=
    map_fst_filter_zipIdx v.items fun item =>
      decide (nearest v.centroids item.vector ∈ probed) && X.evaluate eval item.metadata
  have hdeleted : ((v.surviving eval).candidates none probed).map Prod.fst =
      (v.surviving eval).items.filter fun item =>
        decide (nearest v.centroids item.vector ∈ probed) && true :=
    map_fst_filter_zipIdx (v.surviving eval).items fun item =>
      decide (nearest v.centroids item.vector ∈ probed) && true
  rw [hfiltered, hdeleted]
  unfold surviving
  rw [List.filter_filter]
  simp only [Bool.and_true]

/-- The answer under a filter is the answer of the view without the items that fail it. -/
theorem answer_surviving (v : View X) (eval : X.FilterEvaluator) :
    v.answer query exact (some eval) k = (v.surviving eval).answer query exact none k := by
  have hprobed : (v.surviving eval).probed exact = v.probed exact := rfl
  have hplan : (v.surviving eval).plan query exact k = v.plan query exact k := rfl
  unfold answer
  rw [hprobed, hplan]
  cases v.probed exact with
  | none => rfl
  | some probed =>
    rcases v.plan_eq_comap query exact k with hnone | ⟨plan, hplan⟩
    · rw [hnone]
      rfl
    · rw [hplan]
      -- A hit is made of the item and the score.
      have hhits : ∀ out : Option (List ((Item X × ℕ) × F32)),
          (out >>= fun out => return out.map hitOf) =
            (out.map (List.map fun r => (r.1.1, r.2))).map (List.map hitOfItem) := by
        intro out
        cases out with
        | none => rfl
        | some out =>
          show some (out.map hitOf) = some ((out.map _).map hitOfItem)
          rw [List.map_map]
          rfl
      simp only [Option.bind_eq_bind, Option.bind_some] at hhits ⊢
      have hincreases : ∀ (v : View X) evaluator,
          (v.candidates evaluator probed).Pairwise fun p q => p.2 < q.2 :=
        fun v _ => pairwise_filter_zipIdx v.items _
      rw [hhits, hhits, Plan.run_numbered (hincreases v _) (hincreases (v.surviving eval) none)
        (v.candidates_surviving eval probed)]

end View

/-! ## Deleting -/

/-- The items after deletes. -/
theorem Transitions.items_of_deletes {ids : List X.VectorId} {rs : List (Except IqdbError Unit)}
    (h : Transitions s (ids.map Op.delete) rs t) :
    t.items = s.items.filter fun item => item.id ∉ ids := by
  induction ids generalizing s rs with
  | nil =>
    cases h with
    | nil => simp
  | cons id ids ih =>
    cases h with
    | @cons _ u _ _ _ r rs hs htransition hrest =>
      have hfirst : u.items = s.items.filter fun item => item.id ≠ id := by
        cases r with
        | ok _ => exact htransition.items_of_ok hs
        | error e =>
          -- A delete fails when no item has the id, and then the filter keeps them all.
          have hdelete : (Op.delete id : Op X) ≠ .retrain := nofun
          rw [htransition.items_of_error hdelete]
          cases htransition with
          | deleteAbsent _ hid =>
            symm
            rw [List.filter_eq_self]
            intro item hitem
            rw [decide_eq_true_eq]
            rintro rfl
            exact hid ((mem_ids_iff _).2 (List.mem_map_of_mem hitem))
      rw [ih hrest, hfirst, List.filter_filter]
      apply List.filter_congr
      intro item _
      simp [Bool.and_comm]

/-- The view after the deletes of the items that fail a filter. -/
theorem Inv.view_of_deletes (h : Inv s) {eval : X.FilterEvaluator} {ids : List X.VectorId}
    (hids : ∀ id, id ∈ ids ↔ ∃ e ∈ s.entries, e.id = id ∧ X.evaluate eval e.metadata = false)
    {rs : List (Except IqdbError Unit)} (hcalls : calls (ids.map Op.delete) s = .ok (rs, t)) :
    t.view = s.view.surviving eval := by
  have hrun := transitions_of_calls h hcalls
  have hedits : Transitions s ((ids.map Edit.delete).map Edit.op) rs t := by
    rw [List.map_map]
    exact hrun
  rw [hedits.view_edits, hrun.items_of_deletes]
  have hitems : s.items.filter (fun item => item.id ∉ ids) =
      s.items.filter fun item => X.evaluate eval item.metadata := by
    apply List.filter_congr
    intro item hitem
    obtain ⟨e, he, rfl⟩ := List.mem_map.1 hitem
    have hentry := s.live_perm.mem_iff.1 he
    -- The id of a live entry belongs to this entry only.
    have hmem : e.id ∈ ids ↔ X.evaluate eval e.metadata = false := by
      rw [hids]
      constructor
      · rintro ⟨e', he', hid, hfails⟩
        rwa [List.inj_on_of_nodup_map h.ids_nodup he' hentry hid] at hfails
      · exact fun hfails => ⟨e, hentry, rfl, hfails⟩
    show decide (e.id ∉ ids) = X.evaluate eval e.metadata
    rw [Bool.eq_iff_iff, decide_eq_true_eq, hmem, Bool.not_eq_false]
  rw [hitems]
  rfl

/-! ## Searching -/

/-- A search with a query of another dimension or for another metric returns no hits. -/
theorem search_of_invalid (htrained : s.trained = true) {params : SearchParams X}
    (hinvalid : ¬ (query.length = s.dim ∧ params.metric = s.metric)) (hits : List (Hit X)) :
    s.search query params ≠ .ok hits := by
  rcases search_cases s query params with ⟨r, hr, hsearch⟩ | ⟨evaluator, hr⟩
  · unfold IvfIndex.gate at hr
    rw [htrained, Bool.not_true, if_neg Bool.false_ne_true] at hr
    rw [hsearch]
    by_cases hdim : query.length = s.dim
    · have hmetric : params.metric ≠ s.metric := fun hmetric => hinvalid ⟨hdim, hmetric⟩
      rw [if_neg (not_not.2 hdim), if_pos hmetric] at hr
      obtain rfl := Option.some.inj hr
      exact nofun
    · rw [if_pos hdim] at hr
      obtain rfl := Option.some.inj hr
      exact nofun
  · exact absurd ⟨hr.dim, hr.metric⟩ hinvalid

/-- A view without items answers that there is nothing, when its centroids have scores and its
tables can be built. -/
theorem View.answer_nil {v : View X} (hitems : v.items = [])
    (hcentroids : ∀ c ∈ v.centroids, exact c ≠ none)
    (hpq : v.cfg.use_pq = true → ∃ pq tables, v.pq = some pq ∧
      X.buildQueryTables pq query v.metric = .ok tables) :
    v.answer query exact none k = some [] := by
  obtain ⟨centroids, hbest⟩ : ∃ out, best Arith.totalCmp (fun c : List F32 × ℕ => exact c.1)
      Prod.snd v.cfg.n_probes v.centroids.zipIdx = some out := by
    apply exists_best
    rintro ⟨c, i⟩ hc
    exact hcentroids c (List.fst_mem_of_mem_zipIdx hc)
  have hprobed : v.probed exact = some (centroids.map fun p => p.1.2) := by
    unfold View.probed
    rw [hbest]
    rfl
  have hcands : ∀ probed, v.candidates none probed = [] := by
    intro probed
    unfold View.candidates
    rw [hitems]
    rfl
  obtain ⟨plan, hplan⟩ : ∃ plan, v.plan query exact k = some plan := by
    unfold View.plan
    cases huse : v.cfg.use_pq with
    | false => exact ⟨_, rfl⟩
    | true =>
      obtain ⟨pq, tables, hpq, hbuild⟩ := hpq huse
      simp only [if_true, hpq, hbuild, Option.bind_eq_bind, Option.bind_some, Except.toOption]
      split_ifs
      · exact ⟨_, rfl⟩
      · exact ⟨_, rfl⟩
  unfold View.answer
  rw [hprobed, hplan]
  simp only [Option.bind_eq_bind, Option.bind_some, hcands, Plan.run_nil]
  rfl

/-- A search of a reachable trained index with a filter returns the hits of a search without one,
for the same query and `k`, on the index from which all entries that fail the filter have been
deleted, in any order. The scores of the centroids and the query tables are only needed when no
entry is left, and the second search returns early. -/
theorem filter_eq_delete (hs : Reachable s) (htrained : s.trained = true)
    {score : List F32 → List F32 → Option F32} (hscore : ScoresEach X s.metric s.dim score)
    {filter : X.Filter} {eval : X.FilterEvaluator} (hfilter : X.newEvaluator filter = .ok eval)
    {ids : List X.VectorId}
    (hids : ∀ id, id ∈ ids ↔ ∃ e ∈ s.entries, e.id = id ∧ X.evaluate eval e.metadata = false)
    {rs : List (Except IqdbError Unit)} (hcalls : calls (ids.map Op.delete) s = .ok (rs, t))
    (hcentroids : t.live_count = 0 → ∀ c ∈ s.centroids, score query c ≠ none)
    (htables : t.live_count = 0 → ∀ pq, s.pq = some pq →
      ∃ tables, X.buildQueryTables pq query s.metric = .ok tables)
    (k : UInt64) (metric : DistanceMetric) (hits : List (Hit X)) :
    s.search query ⟨k, metric, some filter⟩ = .ok hits ↔
      t.search query ⟨k, metric, none⟩ = .ok hits := by
  have h := hs.inv
  have ht := (hs.calls hcalls).inv
  have hview := h.view_of_deletes hids hcalls
  have hdim : t.dim = s.dim := congrArg View.dim hview
  have hmetric : t.metric = s.metric := congrArg View.metric hview
  have httrained : t.trained = true := (congrArg View.trained hview).trans htrained
  have hevaluator : evaluatorOf X (some filter) = .ok (some eval) := by
    show (X.newEvaluator filter).map some = _
    rw [hfilter]
    rfl
  by_cases hvalid : query.length = s.dim ∧ metric = s.metric
  · have hstop : s.live_count = 0 → t.live_count = 0 := by
      rw [← h.length_items, ← ht.length_items, List.length_eq_zero_iff, List.length_eq_zero_iff]
      intro hnil
      have hitems : t.items = s.items.filter fun item => X.evaluate eval item.metadata :=
        congrArg View.items hview
      rw [hitems, hnil]
      rfl
    let filtered : SearchParams X := ⟨k, metric, some filter⟩
    let unfiltered : SearchParams X := ⟨k, metric, none⟩
    have hcases := search_cases_of_valid htrained hvalid.1
      (show filtered.metric = s.metric from hvalid.2) hevaluator
    have hcases' := search_cases_of_valid httrained (hvalid.1.trans hdim.symm)
      (show unfiltered.metric = t.metric from hvalid.2.trans hmetric.symm) rfl
    rcases hcases with ⟨hk, hsearch⟩ | hr
    · rcases hcases' with ⟨-, hsearch'⟩ | hr'
      · rw [hsearch, hsearch']
      · rcases hk with hk | hlive
        · exact absurd hk hr'.k_ne_zero
        · exact absurd (hstop hlive) hr'.live
    · rw [search_view h hscore hr, View.answer_surviving]
      rcases hcases' with ⟨hk, hsearch'⟩ | hr'
      · -- No entry is left, so the filtered search selects from nothing.
        have hlive : t.live_count = 0 := hk.resolve_left hr.k_ne_zero
        have hitems : (s.view.surviving eval).items = [] := by
          rw [← hview, ← List.length_eq_zero_iff]
          exact ht.length_items.trans hlive
        rw [hsearch', View.answer_nil hitems]
        · simp
        · intro c hc hnone
          exact hcentroids hlive c hc (Option.map_eq_none_iff.1 hnone)
        · intro huse
          obtain ⟨pq, hpq⟩ := h.exists_pq htrained huse
          obtain ⟨tables, hbuild⟩ := htables hlive pq hpq
          exact ⟨pq, tables, hpq, hbuild⟩
      · have hscore' : ScoresEach X t.metric t.dim score := by rwa [hmetric, hdim]
        rw [search_view ht hscore' hr', hview, hmetric]
  · have hinvalid : ¬ (query.length = t.dim ∧ metric = t.metric) := by rwa [hdim, hmetric]
    exact iff_of_false (search_of_invalid htrained hvalid hits)
      (search_of_invalid httrained hinvalid hits)

/-- A filter of the IVF-PQ index that one of its two items fails. -/
theorem pqState_filter_eq_delete :
    (pqState.after [.delete 3]).live_count = 1 ∧
    ∀ hits, pqState.search [4] ⟨7, .manhattan, some 5⟩ = .ok hits ↔
      (pqState.after [.delete 3]).search [4] ⟨7, .manhattan, none⟩ = .ok hits := by
  have hmetric : pqState.metric = .manhattan := by decide +kernel
  have hlive : (pqState.after [.delete 3]).live_count = 1 := by decide +kernel
  have hscore : ScoresEach crates pqState.metric pqState.dim (distance .manhattan) :=
    manhattan_scoresEach hmetric
  have hfails : (pqState.entries.filter fun e => !crates.evaluate (5 : ℕ) e.metadata).map (·.id) =
      [3] := by decide +kernel
  have hids : ∀ id, id ∈ [3] ↔ ∃ e ∈ pqState.entries, e.id = id ∧
      crates.evaluate (5 : ℕ) e.metadata = false := by
    intro id
    rw [← hfails]
    simp [and_assoc, and_comm]
  refine ⟨hlive, filter_eq_delete pqState_reachable (by decide +kernel) hscore rfl hids
    (pqState_reachable.inv.calls_results [.delete 3]) ?_ ?_ 7 .manhattan⟩
  · intro hzero
    rw [hlive] at hzero
    cases hzero
  · intro hzero
    rw [hlive] at hzero
    cases hzero

end IqdbIvf
