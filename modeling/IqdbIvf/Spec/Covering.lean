import IqdbIvf.Spec.Rational

/-!
# An IVF-PQ index and its IVF-Flat counterpart

An IVF-PQ index without its codes is the IVF-Flat index that the same calls build: every call that
succeeds on both keeps them in step (`Transition.withoutCodes`), because neither the centroids nor
the lists depend on the codes. A shortlist that covers all candidates makes the exact rerank a
search of that IVF-Flat index (`pq_covering_eq_flat`).
-/

set_option linter.unusedSectionVars false

namespace IqdbIvf

open Outcome Buckets Ranking Selection Rational

variable {F32 : Type} [Arith F32] {X : Crates F32} {s t : IvfIndex X} {m : Option ℕ}

/-- The entry of an IVF-Flat index. -/
def InvertedListEntry.withoutCode (e : InvertedListEntry X) : InvertedListEntry X :=
  { e with pq_code := none }

/-- The configuration in IVF-Flat mode. -/
def IvfConfig.flat (cfg : IvfConfig) (m : Option ℕ) : IvfConfig :=
  { cfg with use_pq := false, pq_subvectors := m }

/-- The index without its quantizer and its codes. -/
def IvfIndex.withoutCodes (s : IvfIndex X) (m : Option ℕ) : IvfIndex X :=
  { s with
    cfg := s.cfg.flat m
    pq := none
    inverted_lists := s.inverted_lists.map (List.map (·.withoutCode)) }

/-! ## The transformers commute with the erasure of codes -/

/-- A new IVF-PQ index differs from a new IVF-Flat index in its configuration only. -/
theorem fresh_withoutCodes (dim : ℕ) (metric : DistanceMetric) (cfg : IvfConfig) (m : Option ℕ) :
    (IvfIndex.fresh X dim metric cfg).withoutCodes m =
      .fresh X dim metric (cfg.flat m) := by
  unfold IvfIndex.withoutCodes IvfIndex.fresh
  rw [List.map_replicate]
  rfl

/-- Adding an entry and adding it without its code. -/
theorem addEntry_withoutCodes (s : IvfIndex X) (m : Option ℕ) (c : ℕ) (e : InvertedListEntry X) :
    (s.addEntry c e).withoutCodes m = (s.withoutCodes m).addEntry c e.withoutCode := by
  have hlists : (s.inverted_lists.modify c fun list => list ++ [e]).map
      (List.map (·.withoutCode)) =
      (s.inverted_lists.map (List.map (·.withoutCode))).modify c
        fun list => list ++ [e.withoutCode] := by
    apply List.ext_getElem?
    intro i
    rw [List.getElem?_map, List.getElem?_modify, List.getElem?_modify, List.getElem?_map]
    cases s.inverted_lists[i]? with
    | none => rfl
    | some list =>
      by_cases hi : c = i
      · simp [hi]
      · simp [hi]
  unfold IvfIndex.addEntry IvfIndex.withoutCodes
  rw [hlists]
  rfl

/-- Emptying the lists and emptying them without their codes. -/
theorem drained_withoutCodes (s : IvfIndex X) (m : Option ℕ) (cs : List (List F32))
    (pq : Option X.ProductQuantizer) :
    (s.drained cs pq).withoutCodes m = (s.withoutCodes m).drained cs none := by
  unfold IvfIndex.drained IvfIndex.withoutCodes
  rw [List.map_map, List.map_map]
  rfl

/-- Placing entries and placing them without their codes. -/
theorem placeAll_withoutCodes (s : IvfIndex X) (m : Option ℕ) (es : List (InvertedListEntry X)) :
    (s.placeAll es).withoutCodes m =
      (s.withoutCodes m).placeAll (es.map (·.withoutCode)) := by
  induction es generalizing s with
  | nil => rfl
  | cons e es ih =>
    have hplace : (s.place e).withoutCodes m = (s.withoutCodes m).place e.withoutCode :=
      addEntry_withoutCodes s m _ _
    calc (s.placeAll (e :: es)).withoutCodes m = ((s.place e).placeAll es).withoutCodes m := rfl
      _ = ((s.withoutCodes m).place e.withoutCode).placeAll (es.map (·.withoutCode)) := by
        rw [ih, hplace]

/-- The entries without their codes. -/
theorem entries_withoutCodes (s : IvfIndex X) (m : Option ℕ) :
    (s.withoutCodes m).entries = s.entries.map (·.withoutCode) :=
  List.map_flatten.symm

/-- The live entries without their codes. -/
theorem live_withoutCodes (s : IvfIndex X) (m : Option ℕ) :
    (s.withoutCodes m).live = s.live.map (·.withoutCode) := by
  unfold IvfIndex.live IvfIndex.sortBySeq
  rw [entries_withoutCodes]
  symm
  apply List.map_insertionSort
  intro a _ b _
  exact Iff.rfl

/-- The sample of a retraining does not depend on the codes. -/
theorem sample_withoutCodes (s : IvfIndex X) (m : Option ℕ) :
    (s.withoutCodes m).sample = s.sample := by
  have hvectors : (s.withoutCodes m).live.map (·.vector) = s.live.map (·.vector) := by
    rw [live_withoutCodes, List.map_map]
    rfl
  unfold IvfIndex.sample
  rw [hvectors]
  rfl

/-- `swap_remove` acts on positions. -/
theorem swapRemove_map {α β : Type} (f : α → β) {xs ys : List α} {pos : ℕ}
    (h : IvfIndex.swapRemove xs pos = .ok ys) :
    IvfIndex.swapRemove (xs.map f) pos = .ok (ys.map f) := by
  unfold IvfIndex.swapRemove at h ⊢
  rw [List.getLast?_map]
  cases hlast : xs.getLast? with
  | none =>
    rw [hlast] at h
    cases h
  | some last =>
    rw [hlast] at h
    dsimp only at h ⊢
    rw [Option.map_some]
    dsimp only
    rw [List.length_map]
    split_ifs at h ⊢ with hpos
    obtain rfl := Except.ok.inj h
    rw [← List.map_set, List.map_dropLast]

/-! ## The calls -/

/-- What a delete that returned `Ok` did. -/
theorem Transition.deleted_of_ok {id : X.VectorId} (h : Transition s (.delete id) (.ok ()) t) :
    ∃ e c pos old list, e.id = id ∧ s.inverted_lists[c]? = some old ∧ old[pos]? = some e ∧
      IvfIndex.swapRemove old pos = .ok list ∧ t = s.removeEntry c id list := by
  cases h with
  | deleted e c pos old list hold hpos hlist =>
    exact ⟨e, c, pos, old, list, rfl, hold, hpos, hlist, rfl⟩

/-- A delete finds one position, with or without the codes. -/
theorem Transition.delete_withoutCodes (hs : Inv s) {id : X.VectorId} {s' t' : IvfIndex X}
    (h : Transition s (.delete id) (.ok ()) s')
    (h' : Transition (s.withoutCodes m) (.delete id) (.ok ()) t') : t' = s'.withoutCodes m := by
  obtain ⟨e, c, pos, old, list, hid, hold, hpos, hlist, rfl⟩ := h.deleted_of_ok
  obtain ⟨e', c', pos', old', list', hid', hold', hpos', hlist', rfl⟩ := h'.deleted_of_ok
  -- The entry that the other index removes comes from an entry of this one with the same id.
  have hlists : (s.withoutCodes m).inverted_lists[c']? =
      s.inverted_lists[c']?.map (List.map (·.withoutCode)) := List.getElem?_map ..
  rw [hlists] at hold'
  obtain ⟨old₂, hold₂, rfl⟩ := Option.map_eq_some_iff.1 hold'
  rw [List.getElem?_map] at hpos'
  obtain ⟨e₂, hpos₂, rfl⟩ := Option.map_eq_some_iff.1 hpos'
  have hid₂ : e₂.id = e.id := hid'.trans hid.symm
  have hc : c' = c := Holds.unique hs.ids_nodup ⟨old₂, hold₂, List.mem_of_getElem? hpos₂⟩
    ⟨old, hold, List.mem_of_getElem? hpos⟩ hid₂
  subst hc
  rw [hold] at hold₂
  obtain rfl := Option.some.inj hold₂
  have hnodup := hs.list_ids_nodup hold
  -- Within the list the id occurs once, so both found it at one position.
  have hposeq : pos' = pos := by
    have hlt : pos' < (old.map (·.id)).length := by
      rw [List.length_map]
      exact (List.getElem?_eq_some_iff.1 hpos₂).1
    rw [← List.getElem?_inj hlt hnodup, List.getElem?_map, List.getElem?_map, hpos, hpos₂,
      Option.map_some, Option.map_some, hid₂]
  subst hposeq
  rw [swapRemove_map _ hlist] at hlist'
  obtain rfl := Except.ok.inj hlist'
  unfold IvfIndex.removeEntry IvfIndex.withoutCodes
  rw [List.map_set]

/-- A call that returns `Ok` on an IVF-PQ index and on the index without its codes keeps them in
step. -/
theorem Transition.withoutCodes (hs : Inv s) {op : Op X} {s' t' : IvfIndex X}
    (h : Transition s op (.ok ()) s') (h' : Transition (s.withoutCodes m) op (.ok ()) t') :
    t' = s'.withoutCodes m := by
  cases op with
  | train sample =>
    cases h with
    | trained _ cs pq _ hkmeans _ =>
      cases h' with
      | trained _ cs' pq' _ hkmeans' hpq' =>
        have hcs : cs' = cs := by
          have hkmeans' : trainKmeans s.dim s.cfg.n_clusters s.cfg.seed sample.1
            s.cfg.training_sample_size = .ok cs' := hkmeans'
          rw [hkmeans] at hkmeans'
          exact (Except.ok.inj hkmeans').symm
        have hnone : pq' = none := hpq'.eq_old rfl
        rw [hcs, hnone]
        rfl
  | insert id v md =>
    cases h with
    | inserted _ _ _ code _ _ _ _ _ =>
      cases h' with
      | inserted _ _ _ code' _ _ _ _ hcode' =>
        have hnone : code' = none := (Except.ok.inj hcode').symm
        rw [hnone]
        exact (addEntry_withoutCodes s.bumpSeq m (nearest s.centroids v)
          ⟨id, v, code, md, s.next_seq⟩).symm
  | delete id => exact Transition.delete_withoutCodes hs h h'
  | setNProbes n =>
    cases h with
    | nProbesSet =>
      cases h' with
      | nProbesSet => rfl
  | setPqRefineFactor factor =>
    cases h with
    | pqRefineFactorSet =>
      cases h' with
      | pqRefineFactorSet => rfl
  | retrain =>
    cases h with
    | retrainEmpty _ hlive =>
      cases h' with
      | retrainEmpty => rfl
      -- Both counts are zero, or neither is.
      | retrained _ _ _ hlive' => exact absurd hlive hlive'
    | retrained cs pq _ hlive hkmeans =>
      cases h' with
      | retrainEmpty _ hlive' => exact absurd hlive' hlive
      | retrained cs' pq' _ _ hkmeans' hpq' _ =>
        have hcs : cs' = cs := by
          unfold IvfIndex.recluster at hkmeans'
          rw [sample_withoutCodes] at hkmeans'
          have hkmeans' : s.recluster = .ok cs' := hkmeans'
          rw [hkmeans] at hkmeans'
          exact (Except.ok.inj hkmeans').symm
        have hnone : pq' = none := hpq'.eq_old rfl
        rw [hcs, hnone, placeAll_withoutCodes, drained_withoutCodes, live_withoutCodes]

/-- Calls that all return `Ok` on an IVF-PQ index and on the index without its codes keep them in
step. -/
theorem Transitions.withoutCodes {ops : List (Op X)} {rs rs' : List (Except IqdbError Unit)}
    {s' t' : IvfIndex X} (h : Transitions s ops rs s')
    (h' : Transitions (s.withoutCodes m) ops rs' t')
    (hok : ∀ r ∈ rs, r = .ok ()) (hok' : ∀ r ∈ rs', r = .ok ()) : t' = s'.withoutCodes m := by
  induction h generalizing rs' with
  | nil hs =>
    cases h' with
    | nil => rfl
  | cons hs htransition hrest ih =>
    cases h' with
    | cons _ htransition' hrest' =>
      obtain ⟨rfl, hrs⟩ := List.forall_mem_cons.1 hok
      obtain ⟨rfl, hrs'⟩ := List.forall_mem_cons.1 hok'
      obtain rfl := htransition.withoutCodes hs htransition'
      exact ih hrest' hrs hrs'

/-! ## The searches -/

/-- The candidates without their codes. -/
theorem candidates_withoutCodes (s : IvfIndex X) (m : Option ℕ)
    (evaluator : Option X.FilterEvaluator) (probed : List ℕ) :
    (s.withoutCodes m).candidates evaluator probed =
      (s.candidates evaluator probed).map (·.withoutCode) := by
  have hlist : ∀ c : ℕ, (s.withoutCodes m).inverted_lists[c]?.getD [] =
      (s.inverted_lists[c]?.getD []).map InvertedListEntry.withoutCode := by
    intro c
    show (s.inverted_lists.map (List.map (·.withoutCode)))[c]?.getD [] = _
    rw [List.getElem?_map]
    cases s.inverted_lists[c]? with
    | none => rfl
    | some list => rfl
  unfold IvfIndex.candidates
  simp only [hlist]
  rw [← List.map_flatMap, List.filter_map]
  rfl

/-- Under a covering shortlist the answer of an IVF-PQ index is that of the index without its
codes. -/
theorem Inv.answer_withoutCodes (h : Inv s) (htrained : s.trained = true)
    (huse : s.cfg.use_pq = true) (hfactor : s.cfg.pq_refine_factor ≠ 0)
    (hadc : ∀ pq, s.pq = some pq → AdcSucceeds X s.metric s.dim pq) {query : List F32}
    (hq : query.length = s.dim) {exact : List F32 → Option F32}
    {evaluator : Option X.FilterEvaluator} {k : ℕ}
    (hcover : ∀ probed, s.view.probed exact = some probed →
      (s.candidates evaluator probed).length ≤ saturatingMul s.cfg.pq_refine_factor.toNat k) :
    ((s.withoutCodes m).answer query exact evaluator k).map (List.map hitOf) =
      (s.answer query exact evaluator k).map (List.map hitOf) := by
  cases hcentroids : best Arith.totalCmp (fun c : List F32 × ℕ => exact c.1) Prod.snd
      s.cfg.n_probes s.centroids.zipIdx with
  | none =>
    have hcentroids' : best Arith.totalCmp (fun c : List F32 × ℕ => exact c.1) Prod.snd
      (s.withoutCodes m).cfg.n_probes (s.withoutCodes m).centroids.zipIdx = none := hcentroids
    unfold IvfIndex.answer
    rw [hcentroids, hcentroids']
    rfl
  | some centroids =>
    have hcentroids' : best Arith.totalCmp (fun c : List F32 × ℕ => exact c.1) Prod.snd
      (s.withoutCodes m).cfg.n_probes (s.withoutCodes m).centroids.zipIdx = some centroids :=
      hcentroids
    have hprobed : s.view.probed exact = some (centroids.map fun p => p.1.2) :=
      Option.map_eq_some_iff.2 ⟨centroids, hcentroids, rfl⟩
    have hlen := hcover _ hprobed
    have hnodup := probed_nodup hprobed
    obtain ⟨pq, hpq⟩ := h.exists_pq htrained huse
    obtain ⟨tables, hbuild, hlookup⟩ := hadc pq hpq query hq
    rw [answer_of_probed hcentroids, answer_of_probed hcentroids', plan_of_pq huse hpq hbuild,
      plan_of_flat rfl, if_neg hfactor, Option.bind_some, Option.bind_some, Plan.run_direct,
      candidates_withoutCodes]
    have hseqs := h.candidates_seqs evaluator hnodup
    -- Every candidate has an ADC score, so the shortlist holds all of them.
    have hscore : ∀ e ∈ s.candidates evaluator (centroids.map fun p => p.1.2),
        adcScore X s.metric tables e ≠ none := by
      intro e he
      obtain ⟨code, adc, -, -, heq⟩ := h.exists_adc hpq hlookup (mem_entries_of_candidates he)
      rw [heq]
      exact Option.some_ne_none _
    have hmap : best Arith.totalCmp (fun e : InvertedListEntry X => exact e.vector)
        (fun e => e.seq) k
        ((s.candidates evaluator (centroids.map fun p => p.1.2)).map (·.withoutCode)) =
        (best Arith.totalCmp (fun e : InvertedListEntry X => exact e.vector) (fun e => e.seq) k
          (s.candidates evaluator (centroids.map fun p => p.1.2))).map
            fun out => out.map fun p => (p.1.withoutCode, p.2) :=
      best_map InvertedListEntry.withoutCode (fun _ _ => rfl) fun _ _ _ _ => rfl
    rw [Plan.run_staged_of_le hseqs hlen hscore, hmap, Option.map_map]
    cases best Arith.totalCmp (fun e : InvertedListEntry X => exact e.vector) (fun e => e.seq) k
        (s.candidates evaluator (centroids.map fun p => p.1.2)) with
    | none => rfl
    | some out =>
      simp only [Option.map_some, Function.comp_apply, List.map_map]
      rfl

/-- Two indexes with configurations that differ in the IVF-PQ mode only, after the same calls, all
of which return `Ok` on both: their centroids and their lists agree apart from the codes, and so do
their searches when the shortlist of the IVF-PQ index covers the candidates. -/
theorem pq_covering_eq_flat {dim : ℕ} {metric : DistanceMetric} {cfg : IvfConfig}
    {m : Option ℕ} {s₀ t₀ s t : IvfIndex X} (huse : cfg.use_pq = true)
    (hnew : IvfIndex.new X dim metric cfg = .ok s₀)
    (hnew' : IvfIndex.new X dim metric { cfg with use_pq := false, pq_subvectors := m } = .ok t₀)
    {ops : List (Op X)} {rs rs' : List (Except IqdbError Unit)}
    (hcalls : calls ops s₀ = .ok (rs, s)) (hcalls' : calls ops t₀ = .ok (rs', t))
    (hok : ∀ r ∈ rs, r = .ok ()) (hok' : ∀ r ∈ rs', r = .ok ())
    {score : List F32 → List F32 → Option F32} (hscore : ScoresEach X metric dim score)
    (hadc : ∀ pq, s.pq = some pq → AdcSucceeds X metric dim pq) :
    s.centroids = t.centroids ∧
    t.inverted_lists = s.inverted_lists.map (List.map (·.withoutCode)) ∧
    ∀ (query : List F32) (params : SearchParams X) (evaluator : Option X.FilterEvaluator),
      evaluatorOf X params.filter = .ok evaluator → s.cfg.pq_refine_factor ≠ 0 →
      (∀ probed, s.view.probed (exactScore metric score query) = some probed →
        (s.candidates evaluator probed).length ≤
          saturatingMul s.cfg.pq_refine_factor.toNat params.k.toNat) →
      ∀ hits, s.search query params = .ok hits ↔ t.search query params = .ok hits := by
  have hinv₀ := Inv.new hnew
  have hinv₀' := Inv.new hnew'
  obtain ⟨-, -, -, rfl⟩ := IvfIndex.new_eq_ok.1 hnew
  obtain ⟨-, -, -, rfl⟩ := IvfIndex.new_eq_ok.1 hnew'
  have hfresh := fresh_withoutCodes (X := X) dim metric cfg m
  unfold IvfConfig.flat at hfresh
  rw [← hfresh] at hcalls' hinv₀'
  have hrun := transitions_of_calls hinv₀ hcalls
  have hrun' := transitions_of_calls hinv₀' hcalls'
  have h := hrun.inv
  have h' := hrun'.inv
  have hframe := hrun.frame
  -- The second index is the first one without its codes.
  obtain rfl := hrun.withoutCodes hrun' hok hok'
  refine ⟨rfl, rfl, ?_⟩
  intro query params evaluator hfilter hfactor hcover hits
  have hdim : s.dim = dim := hframe.dim
  have hmetric : s.metric = metric := hframe.metric
  have huse' : s.cfg.use_pq = true := hframe.cfg.use_pq.trans huse
  rw [← hdim, ← hmetric] at hscore hadc
  rw [← hmetric] at hcover
  have hgate : (s.withoutCodes m).gate query params = s.gate query params := rfl
  rcases search_cases s query params with ⟨r, hr, hsearch⟩ | ⟨evaluator', hr⟩
  · rcases search_cases (s.withoutCodes m) query params with ⟨r', hr', hsearch'⟩ | ⟨_, hr'⟩
    · rw [hgate, hr] at hr'
      obtain rfl := Option.some.inj hr'
      rw [hsearch, hsearch']
    · rw [← hgate, hr'.gate_eq_none] at hr
      cases hr
  · have hr' : Reaches (s.withoutCodes m) query params evaluator' :=
      ⟨hr.trained, hr.dim, hr.metric, hr.k_ne_zero, hr.live, hr.filter⟩
    have hfilter' := hr.filter
    rw [hfilter] at hfilter'
    obtain rfl := Except.ok.inj hfilter'
    rw [search_eq_ok_iff h hscore hr, search_eq_ok_iff h' hscore hr']
    show _ ↔ ((s.withoutCodes m).answer query (exactScore s.metric score query) evaluator
      params.k.toNat).map (List.map hitOf) = some hits
    rw [h.answer_withoutCodes hr.trained huse' hfactor hadc hr.dim hcover]

/-- The configuration of the IVF-PQ index, in IVF-Flat mode. -/
def twinConfig : IvfConfig := { pqConfig with use_pq := false, pq_subvectors := none }

/-- An empty index with this configuration. -/
def twinIndex : IvfIndex crates := .fresh crates 1 .manhattan twinConfig

/-- The index is what construction returns. -/
theorem twinIndex_new : IvfIndex.new crates 1 .manhattan twinConfig = .ok twinIndex := by
  have hvalid : twinConfig.Valid := (IvfConfig.validate_eq_ok _).1 rfl
  exact IvfIndex.new_eq_ok.2 ⟨Nat.one_pos, hvalid, rfl, rfl⟩

/-- The IVF-PQ index with two items and its IVF-Flat twin. -/
theorem pqState_covering_eq_flat :
    (pqState.live_count = 2 ∧ pqState.cfg.pq_refine_factor ≠ 0) ∧
    (pqState.centroids = (twinIndex.after pqCalls).centroids ∧
    (twinIndex.after pqCalls).inverted_lists =
      pqState.inverted_lists.map (List.map (·.withoutCode)) ∧
    ∀ (query : List ℚ) (params : SearchParams crates) (evaluator : Option crates.FilterEvaluator),
      evaluatorOf crates params.filter = .ok evaluator → pqState.cfg.pq_refine_factor ≠ 0 →
      (∀ probed, pqState.view.probed (exactScore .manhattan (distance .manhattan) query) =
        some probed → (pqState.candidates evaluator probed).length ≤
          saturatingMul pqState.cfg.pq_refine_factor.toNat params.k.toNat) →
      ∀ hits, pqState.search query params = .ok hits ↔
        (twinIndex.after pqCalls).search query params = .ok hits) := by
  have hcalls : calls pqCalls pqIndex = .ok (pqIndex.results pqCalls, pqState) :=
    (Inv.new pqIndex_new).calls_results pqCalls
  have hcalls' := (Inv.new twinIndex_new).calls_results pqCalls
  have hok : ∀ r ∈ pqIndex.results pqCalls, r = .ok () := by decide +kernel
  have hok' : ∀ r ∈ twinIndex.results pqCalls, r = .ok () := by decide +kernel
  refine ⟨by decide +kernel, ?_⟩
  exact pq_covering_eq_flat (m := none) rfl pqIndex_new twinIndex_new hcalls hcalls' hok hok'
    (scoresEach .manhattan 1) pqState_adcSucceeds

end IqdbIvf
