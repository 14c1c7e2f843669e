import IqdbIvf.Lib.Fronts
import IqdbIvf.Spec.Failures

/-!
# The items behind the hits

A hit shows the id, the distance and the metadata of an item. The selection from which the hits are
made keeps the item itself and its position in insertion order (`View.selected`), and every hit list
that a search returns comes from one, unless there was nothing to do (`Inv.search_ok_cases`). What
the scores of its plan depend on is the vector of an item and nothing else (`View.plan_cases`).
-/

set_option linter.unusedSectionVars false

namespace IqdbIvf

open Outcome Ranking Selection

variable {F32 : Type} [Arith F32] {X : Crates F32} {s t : IvfIndex X} {v w : View X}
  {query : List F32} {exact : List F32 → Option F32} {evaluator : Option X.FilterEvaluator} {k : ℕ}
  {out : List ((Item X × ℕ) × F32)}

namespace View

/-- The items that a search selects, with their positions and distances. -/
def selected (v : View X) (query : List F32) (exact : List F32 → Option F32)
    (evaluator : Option X.FilterEvaluator) (k : ℕ) : Option (List ((Item X × ℕ) × F32)) := do
  let probed ← v.probed exact
  let plan ← v.plan query exact k
  plan.run Arith.totalCmp Prod.snd k (v.candidates evaluator probed)

/-- The hits are made from the selection. -/
theorem answer_eq_selected :
    v.answer query exact evaluator k =
      (v.selected query exact evaluator k).map (List.map hitOf) := by
  unfold answer selected
  cases v.probed exact with
  | none => rfl
  | some probed =>
    cases v.plan query exact k with
    | none => rfl
    | some plan =>
      simp only [Option.bind_eq_bind, Option.bind_some]
      cases plan.run Arith.totalCmp Prod.snd k (v.candidates evaluator probed) with
      | none => rfl
      | some out => rfl

/-- A selection runs a plan over the candidates of the probed clusters. -/
theorem selected_eq_some_iff : v.selected query exact evaluator k = some out ↔
    ∃ probed plan, v.probed exact = some probed ∧ v.plan query exact k = some plan ∧
      plan.run Arith.totalCmp Prod.snd k (v.candidates evaluator probed) = some out := by
  unfold selected
  simp only [Option.bind_eq_bind, Option.bind_eq_some_iff, exists_and_left]

/-- The hits carry the scores by which they were selected: no shortlist is reranked. -/
def Direct (v : View X) : Prop := v.cfg.use_pq = false ∨ v.cfg.pq_refine_factor = 0

/-- The ADC score of a vector. -/
def adcOf (X : Crates F32) (metric : DistanceMetric) (pq : X.ProductQuantizer)
    (tables : X.PqAdcTables) (vector : List F32) : Option F32 :=
  (X.quantize pq vector).toOption.bind fun code =>
    (X.adcDistance tables code).toOption.map (orient metric)

/-- The plan of a search, for every `k`: none, one score, or a shortlist whose length grows with
`k`. All scores are scores of the vector. -/
theorem plan_cases (v : View X) (query : List F32) (exact : List F32 → Option F32) :
    (∀ k, v.plan query exact k = none) ∨
    (∃ score : List F32 → Option F32,
      ∀ k, v.plan query exact k = some (.direct fun p => score p.1.vector)) ∨
    (¬ v.Direct ∧ ∃ adc : List F32 → Option F32, ∀ k, v.plan query exact k =
      some (.staged (fun p => adc p.1.vector) (fun p => exact p.1.vector)
        (saturatingMul v.cfg.pq_refine_factor.toNat k))) := by
  unfold plan Direct
  cases v.cfg.use_pq with
  | false => exact .inr (.inl ⟨exact, fun _ => rfl⟩)
  | true =>
    cases v.pq with
    | none => exact .inl fun _ => rfl
    | some pq =>
      cases hbuild : X.buildQueryTables pq query v.metric with
      | error e =>
        left
        intro k
        simp only [if_true, Option.bind_eq_bind, Option.bind_some, hbuild]
        rfl
      | ok tables =>
        right
        simp only [if_true, Option.bind_eq_bind, Option.bind_some, hbuild, Except.toOption]
        by_cases hzero : v.cfg.pq_refine_factor = 0
        · left
          refine ⟨adcOf X v.metric pq tables, fun k => ?_⟩
          rw [if_pos hzero]
          rfl
        · right
          refine ⟨fun hdirect => ?_, adcOf X v.metric pq tables, fun k => ?_⟩
          · rcases hdirect with huse | hzero'
            · cases huse
            · exact hzero hzero'
          · rw [if_neg hzero]
            rfl

/-- Candidates do not share a position. -/
theorem candidates_positions (v : View X) (evaluator : Option X.FilterEvaluator)
    (probed : List ℕ) : (v.candidates evaluator probed).Pairwise fun p q => p.2 < q.2 :=
  pairwise_filter_zipIdx v.items _

/-- Candidates do not share a position, as a list of positions. -/
theorem candidates_nodup (v : View X) (evaluator : Option X.FilterEvaluator) (probed : List ℕ) :
    ((v.candidates evaluator probed).map Prod.snd).Nodup :=
  List.pairwise_map.2 ((v.candidates_positions evaluator probed).imp Nat.ne_of_lt)

/-- A candidate is the item at its position. -/
theorem mem_candidates_iff {probed : List ℕ} {p : Item X × ℕ} :
    p ∈ v.candidates evaluator probed ↔ v.items[p.2]? = some p.1 ∧
      nearest v.centroids p.1.vector ∈ probed ∧ keeps X evaluator p.1.metadata = true := by
  unfold candidates
  rw [List.mem_filter, Bool.and_eq_true, decide_eq_true_eq, List.mem_zipIdx_iff_getElem?]

/-- A selected item is the item at its position, and satisfies the filter. -/
theorem mem_selected (h : v.selected query exact evaluator k = some out)
    {r : (Item X × ℕ) × F32} (hr : r ∈ out) :
    v.items[r.1.2]? = some r.1.1 ∧ keeps X evaluator r.1.1.metadata = true := by
  obtain ⟨probed, plan, -, -, hrun⟩ := selected_eq_some_iff.1 h
  obtain ⟨hget, -, hkeeps⟩ := mem_candidates_iff.1 (plan.mem_of_run hrun hr)
  exact ⟨hget, hkeeps⟩

end View

/-! ## Searches that return hits -/

/-- A search that returns hits had nothing to do, or selected the items of the hits. -/
theorem Inv.search_ok_cases (h : Inv s) {score : List F32 → List F32 → Option F32}
    (hscore : ScoresEach X s.metric s.dim score) {params : SearchParams X} {hits : List (Hit X)}
    (hsearch : s.search query params = .ok hits) :
    (s.trained = true ∧ query.length = s.dim ∧ params.metric = s.metric) ∧
    (((params.k = 0 ∨ s.items = []) ∧ hits = []) ∨ ∃ evaluator out,
      Reaches s query params evaluator ∧ s.view.selected query (exactScore s.metric score query)
        evaluator params.k.toNat = some out ∧ hits = out.map View.hitOf) := by
  rcases search_cases s query params with ⟨r, hgate, hr⟩ | ⟨evaluator, hr⟩
  · rw [hsearch] at hr
    cases r with
    | error e => cases hr
    | ok hits' =>
      obtain rfl := Except.ok.inj hr
      unfold IvfIndex.gate at hgate
      cases htrained : s.trained with
      | false =>
        rw [htrained, Bool.not_false, if_pos rfl] at hgate
        cases hgate
      | true =>
        rw [htrained, Bool.not_true, if_neg Bool.false_ne_true] at hgate
        split_ifs at hgate with hdim hmetric hstop
        · cases hgate
        · cases hgate
        · rw [h.live_count_eq_zero_iff] at hstop
          obtain rfl := Except.ok.inj (Option.some.inj hgate)
          exact ⟨⟨rfl, not_not.1 hdim, not_not.1 hmetric⟩, .inl ⟨hstop, rfl⟩⟩
        · cases hfilter : evaluatorOf X params.filter with
          | error e =>
            rw [hfilter] at hgate
            cases hgate
          | ok evaluator =>
            rw [hfilter] at hgate
            cases hgate
  · rw [search_view h hscore hr, View.answer_eq_selected, Option.map_eq_some_iff] at hsearch
    obtain ⟨out, hout, rfl⟩ := hsearch
    exact ⟨⟨hr.trained, hr.dim, hr.metric⟩, .inr ⟨evaluator, out, hr, hout, rfl⟩⟩

/-- A search that has nothing to do returns no hits, whatever its filter is. -/
theorem Inv.search_idle (h : Inv s) (htrained : s.trained = true) (hdim : query.length = s.dim)
    {params : SearchParams X} (hmetric : params.metric = s.metric)
    (hidle : params.k = 0 ∨ s.items = []) : s.search query params = .ok [] := by
  have hgate : s.gate query params = some (.ok []) := by
    rw [← h.live_count_eq_zero_iff] at hidle
    unfold IvfIndex.gate
    rw [htrained, Bool.not_true, if_neg Bool.false_ne_true, if_neg (not_not.2 hdim),
      if_neg (not_not.2 hmetric), if_pos hidle]
  rcases search_cases s query params with ⟨r, hr, hsearch⟩ | ⟨evaluator, hr⟩
  · rw [hgate] at hr
    obtain rfl := Option.some.inj hr
    exact hsearch
  · rw [hr.gate_eq_none] at hgate
    cases hgate

/-- A search that reaches its passes returns the hits of what it selects. -/
theorem Inv.search_of_selected (h : Inv s) {score : List F32 → List F32 → Option F32}
    (hscore : ScoresEach X s.metric s.dim score) {params : SearchParams X}
    (hr : Reaches s query params evaluator) (hout : s.view.selected query
      (exactScore s.metric score query) evaluator params.k.toNat = some out) :
    s.search query params = .ok (out.map View.hitOf) := by
  rw [search_view h hscore hr, View.answer_eq_selected, hout]
  rfl

end IqdbIvf
