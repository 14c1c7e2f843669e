import IqdbIvf.Lib.Reordering
import IqdbIvf.Spec.Journal
import IqdbIvf.Spec.Selected

/-!
# Ties

Equal scores are ranked in insertion order, in every selection that a search makes. Of two items
with equal vectors the earlier one is therefore never left out for the later one, with or without a
rerank (`equal_vectors_in_insertion_order`). And without a rerank, ties are all that the insertion
order decides: another order of the same items gives the same distances at every position, and the
same hits except among those that tie with the last one (`insertion_order_only_breaks_ties`).
-/

set_option linter.unusedSectionVars false

namespace IqdbIvf

open Outcome Ranking Selection Rational

variable {F32 : Type} [Arith F32] {X : Crates F32} {s t t' : IvfIndex X} {v w : View X}
  {query : List F32} {exact : List F32 → Option F32} {evaluator : Option X.FilterEvaluator} {k : ℕ}
  {out : List ((Item X × ℕ) × F32)}

/-! ## Equal vectors -/

/-- Of two items with equal vectors that satisfy the filter, the later one is only selected after
the earlier one. -/
theorem View.selected_tie (h : v.selected query exact evaluator k = some out) {i j : ℕ}
    (hij : i < j) {a b : Item X} (ha : v.items[i]? = some a) (hvec : a.vector = b.vector)
    (hkeep : keeps X evaluator a.metadata = true) {m : ℕ} {d : F32}
    (hm : out[m]? = some ((b, j), d)) : ∃ l, l < m ∧ out[l]? = some ((a, i), d) := by
  obtain ⟨probed, plan, -, hplan, hrun⟩ := View.selected_eq_some_iff.1 h
  have hscores : ∀ score ∈ plan.scores, score (a, i) = score (b, j) := by
    rcases v.plan_cases query exact with hnone | ⟨score, hscore⟩ | ⟨-, adc, hstaged⟩
    · rw [hnone] at hplan
      cases hplan
    · rw [hscore] at hplan
      obtain rfl := Option.some.inj hplan
      intro score' hscore'
      obtain rfl := List.mem_singleton.1 hscore'
      exact congrArg score hvec
    · rw [hstaged] at hplan
      obtain rfl := Option.some.inj hplan
      intro score' hscore'
      rcases List.mem_cons.1 hscore' with rfl | hscore'
      · exact congrArg adc hvec
      · obtain rfl := List.mem_singleton.1 hscore'
        exact congrArg exact hvec
  have hb : (b, j) ∈ v.candidates evaluator probed :=
    plan.mem_of_run hrun (List.mem_of_getElem? hm)
  have hcand : (a, i) ∈ v.candidates evaluator probed := by
    obtain ⟨-, hprobed, -⟩ := View.mem_candidates_iff.1 hb
    rw [← hvec] at hprobed
    exact View.mem_candidates_iff.2 ⟨ha, hprobed, hkeep⟩
  exact Plan.run_tie (v.candidates_nodup evaluator probed) hrun hcand hscores hij hm

/-- Equal vectors are served in insertion order: an item is a hit only behind every earlier item
with the same vector that satisfies the filter, and these are at its distance. -/
theorem equal_vectors_in_insertion_order (hs : Reachable s)
    {score : List F32 → List F32 → Option F32} (hscore : ScoresEach X s.metric s.dim score)
    {query : List F32} {params : SearchParams X} {evaluator : Option X.FilterEvaluator}
    (hfilter : evaluatorOf X params.filter = .ok evaluator) {hits : List (Hit X)}
    (hsearch : s.search query params = .ok hits) {i j : ℕ} (hij : i < j) {a b : Item X}
    (ha : s.items[i]? = some a) (hb : s.items[j]? = some b) (hvec : a.vector = b.vector)
    (hkeep : keeps X evaluator a.metadata = true) {m : ℕ} {hit : Hit X}
    (hhit : hits[m]? = some hit) (hid : hit.id = b.id) :
    ∃ l, l < m ∧ hits[l]? = some ⟨a.id, hit.distance, a.metadata⟩ := by
  have h := hs.inv
  obtain ⟨-, ⟨-, rfl⟩ | ⟨evaluator₀, out, hr, hout, rfl⟩⟩ := h.search_ok_cases hscore hsearch
  · rw [List.getElem?_nil] at hhit
    cases hhit
  obtain rfl : evaluator₀ = evaluator := Except.ok.inj (hr.filter.symm.trans hfilter)
  rw [List.getElem?_map, Option.map_eq_some_iff] at hhit
  obtain ⟨⟨⟨b', j'⟩, d⟩, hm, rfl⟩ := hhit
  -- The id of the hit belongs to one item only.
  obtain ⟨hget, -⟩ := View.mem_selected hout (List.mem_of_getElem? hm)
  have hget' : s.items[j']? = some b' := hget
  obtain rfl : j' = j := by
    have hlt : j' < (s.items.map (·.id)).length := by
      rw [List.length_map]
      exact (List.getElem?_eq_some_iff.1 hget').1
    apply (List.getElem?_inj hlt h.item_ids_nodup).1
    rw [List.getElem?_map, List.getElem?_map, hget', hb]
    exact congrArg some hid
  obtain rfl : b' = b := Option.some.inj (hget'.symm.trans hb)
  obtain ⟨l, hl, hla⟩ := View.selected_tie hout hij ha hvec hkeep hm
  refine ⟨l, hl, ?_⟩
  rw [List.getElem?_map, hla]
  rfl

/-- An index with two equal vectors. -/
def tiedState : IvfIndex crates := flatState.after [.insert 5 [2] none]

/-- The second of the equal vectors is served behind the first one. -/
theorem tiedState_in_insertion_order :
    ∃ hits hit, tiedState.search [4] ⟨3, .manhattan, none⟩ = .ok hits ∧ hits[1]? = some hit ∧
      ∃ l, l < 1 ∧ hits[l]? = some ⟨3, hit.distance, some 5⟩ := by
  have hmetric : tiedState.metric = .manhattan := by decide +kernel
  have hscore : ScoresEach crates tiedState.metric tiedState.dim (distance .manhattan) :=
    manhattan_scoresEach hmetric
  have hreach : Reachable tiedState := flatState_reachable.after _
  let params : SearchParams crates := ⟨3, .manhattan, none⟩
  have hfilter : evaluatorOf crates params.filter = .ok none := rfl
  have hid : (tiedState.search [4] params).toOption.bind (fun hits => hits[1]?.map (·.id)) =
      some 5 := by decide +kernel
  have hfirst : tiedState.items[1]? = some ⟨3, [2], some 5⟩ := by decide +kernel
  have hsecond : tiedState.items[2]? = some ⟨5, [2], none⟩ := by decide +kernel
  cases hsearch : tiedState.search [4] params with
  | error f =>
    rw [hsearch] at hid
    cases hid
  | ok hits =>
    rw [hsearch] at hid
    obtain ⟨hit, hhit, hid⟩ := Option.map_eq_some_iff.1 hid
    exact ⟨hits, hit, rfl, hhit, equal_vectors_in_insertion_order hreach hscore hfilter hsearch
      (Nat.lt_succ_self 1) hfirst hsecond rfl rfl hhit hid⟩

/-! ## Other orders -/

/-- The candidates among reordered items are the same items. -/
theorem View.candidates_reordered {items' : List (Item X)} (hperm : v.items.Perm items')
    (probed : List ℕ) : ((v.candidates evaluator probed).map Prod.fst).Perm
      ((View.candidates { v with items := items' } evaluator probed).map Prod.fst) := by
  let chosen : Item X → Bool := fun item =>
    decide (nearest v.centroids item.vector ∈ probed) && keeps X evaluator item.metadata
  have hchosen : ∀ items : List (Item X),
      (View.candidates { v with items := items } evaluator probed).map Prod.fst =
        items.filter chosen := fun items => map_fst_filter_zipIdx items chosen
  have hv : (v.candidates evaluator probed).map Prod.fst = v.items.filter chosen := hchosen v.items
  rw [hv, hchosen]
  exact hperm.filter chosen

/-- A direct selection among reordered items has the same distances up to ties, and the same items
before the distance of the last one. -/
theorem View.selected_reordered (hdirect : v.Direct) {items' : List (Item X)}
    (hperm : v.items.Perm items') (h : v.selected query exact evaluator k = some out) :
    ∃ out', View.selected { v with items := items' } query exact evaluator k = some out' ∧
      List.Forall₂ (fun p q => Arith.totalCmp p.2 q.2 = .eq) out out' ∧
      ∀ p ∈ out, ∀ q ∈ out, Arith.totalCmp p.2 q.2 = .lt →
        (p.1.1, p.2) ∈ out'.map fun r => (r.1.1, r.2) := by
  obtain ⟨probed, plan, hprobed, hplan, hrun⟩ := View.selected_eq_some_iff.1 h
  rcases v.plan_cases query exact with hnone | ⟨score, hscore⟩ | ⟨hreranked, -⟩
  · rw [hnone] at hplan
    cases hplan
  · rw [hscore] at hplan
    obtain rfl := Option.some.inj hplan
    obtain ⟨out', hout', hsame⟩ := best_reordered Prod.fst
      (fun item : Item X => score item.vector) (v.candidates_nodup evaluator probed)
      (View.candidates_nodup { v with items := items' } evaluator probed)
      (View.candidates_reordered hperm probed) hrun
    exact ⟨out', View.selected_eq_some_iff.2 ⟨probed, _, hprobed, hscore k, hout'⟩, hsame⟩
  · exact absurd hdirect hreranked

/-- Without a rerank, ties are all that the insertion order decides. When two sequences of inserts
and deletes lead from one index to the same items in different orders, a search returns the same
distances at every position, up to ties, and the same hits except among those that tie with the
last one. -/
theorem insertion_order_only_breaks_ties (hs : Reachable s)
    (hdirect : s.cfg.use_pq = false ∨ s.cfg.pq_refine_factor = 0)
    {score : List F32 → List F32 → Option F32} (hscore : ScoresEach X s.metric s.dim score)
    {edits edits' : List (Edit X)} {rs rs' : List (Except IqdbError Unit)}
    (hcalls : calls (edits.map Edit.op) s = .ok (rs, t))
    (hcalls' : calls (edits'.map Edit.op) s = .ok (rs', t')) (hperm : t.items.Perm t'.items)
    {query : List F32} {params : SearchParams X} {hits : List (Hit X)}
    (hsearch : t.search query params = .ok hits) :
    ∃ hits', t'.search query params = .ok hits' ∧
      List.Forall₂ (fun a b => Arith.totalCmp a.distance b.distance = .eq) hits hits' ∧
      ∀ hit ∈ hits, ∀ last ∈ hits, Arith.totalCmp hit.distance last.distance = .lt →
        hit ∈ hits' := by
  have h := hs.inv
  have hedits := transitions_of_calls h hcalls
  have hedits' := transitions_of_calls h hcalls'
  have ht := hedits.inv
  have ht' := hedits'.inv
  have hview : t'.view = { t.view with items := t'.items } := by
    rw [hedits.view_edits, hedits'.view_edits]
  have hdirect' : t.view.Direct := by
    rw [hedits.view_edits]
    exact hdirect
  have hframe := hedits.frame
  have hframe' := hedits'.frame
  have hscored : ScoresEach X t.metric t.dim score := by
    rw [hframe.metric, hframe.dim]
    exact hscore
  have hscored' : ScoresEach X t'.metric t'.dim score := by
    rw [hframe'.metric, hframe'.dim]
    exact hscore
  have hmetric : t'.metric = t.metric := congrArg View.metric hview
  have hdim : t'.dim = t.dim := congrArg View.dim hview
  have htrained : t'.trained = t.trained := congrArg View.trained hview
  obtain ⟨⟨htrained', hquery, hparams⟩, hcases⟩ := ht.search_ok_cases hscored hsearch
  rcases hcases with ⟨hstop, rfl⟩ | ⟨evaluator, out, hr, hout, rfl⟩
  · have hidle : params.k = 0 ∨ t'.items = [] := by
      refine hstop.imp_right fun hnil => ?_
      rw [hnil] at hperm
      exact hperm.symm.eq_nil
    exact ⟨[], ht'.search_idle (htrained.trans htrained') (hquery.trans hdim.symm)
      (hparams.trans hmetric.symm) hidle, .nil, nofun⟩
  · have hlive : t'.live_count ≠ 0 := by
      rw [← ht'.length_items, ← hperm.length_eq, ht.length_items]
      exact hr.live
    have hr' : Reaches t' query params evaluator := ⟨htrained.trans hr.trained,
      hr.dim.trans hdim.symm, hr.metric.trans hmetric.symm, hr.k_ne_zero, hlive, hr.filter⟩
    obtain ⟨out', hout', hdistances, hsame⟩ := View.selected_reordered hdirect' hperm hout
    rw [← hview, ← hmetric] at hout'
    refine ⟨_, ht'.search_of_selected hscored' hr' hout', ?_, ?_⟩
    · rw [List.forall₂_map_left_iff, List.forall₂_map_right_iff]
      exact hdistances
    · intro hit hhit last hlast hlt
      obtain ⟨p, hp, rfl⟩ := List.mem_map.1 hhit
      obtain ⟨q, hq, rfl⟩ := List.mem_map.1 hlast
      -- A hit is made of the item and the distance.
      obtain ⟨r, hr, heq⟩ := List.mem_map.1 (hsame p hp q hq hlt)
      obtain ⟨hitem, hdistance⟩ := Prod.mk.inj heq
      refine List.mem_map.2 ⟨r, hr, ?_⟩
      show (⟨r.1.1.id, r.2, r.1.1.metadata⟩ : Hit X) = ⟨p.1.1.id, p.2, p.1.1.metadata⟩
      rw [hitem, hdistance]

/-- Two items, inserted in one order and in the other. -/
theorem flatTrained_reordered :
    ∃ hits, (flatTrained.after ([.insert 3 [1] none, .insert 4 [9] none].map Edit.op)).search
        [4] ⟨2, .manhattan, none⟩ = .ok hits ∧
      ∃ hits', (flatTrained.after ([.insert 4 [9] none, .insert 3 [1] none].map Edit.op)).search
          [4] ⟨2, .manhattan, none⟩ = .ok hits' ∧
        List.Forall₂ (fun a b => Arith.totalCmp a.distance b.distance = .eq) hits hits' ∧
        ∀ hit ∈ hits, ∀ last ∈ hits, Arith.totalCmp hit.distance last.distance = .lt →
          hit ∈ hits' := by
  have hreach : Reachable flatTrained := (Reachable.new flatIndex_new).after _
  have hmetric : flatTrained.metric = .manhattan := by decide +kernel
  have hscore : ScoresEach crates flatTrained.metric flatTrained.dim (distance .manhattan) :=
    manhattan_scoresEach hmetric
  have hflat : flatTrained.cfg.use_pq = false := by decide +kernel
  let params : SearchParams crates := ⟨2, .manhattan, none⟩
  let edits : List (Edit crates) := [.insert 3 [1] none, .insert 4 [9] none]
  let edits' : List (Edit crates) := [.insert 4 [9] none, .insert 3 [1] none]
  have hcalls := hreach.inv.calls_results (edits.map Edit.op)
  have hcalls' := hreach.inv.calls_results (edits'.map Edit.op)
  have hperm : (flatTrained.after (edits.map Edit.op)).items.Perm
      (flatTrained.after (edits'.map Edit.op)).items := by decide +kernel
  have hreturns : ((flatTrained.after (edits.map Edit.op)).search [4] params).isOk = true := by
    decide +kernel
  cases hsearch : (flatTrained.after (edits.map Edit.op)).search [4] params with
  | error f =>
    rw [hsearch] at hreturns
    cases hreturns
  | ok hits =>
    exact ⟨hits, rfl, insertion_order_only_breaks_ties hreach (.inl hflat) hscore hcalls
      hcalls' hperm hsearch⟩

end IqdbIvf
