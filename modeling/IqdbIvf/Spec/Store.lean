import IqdbIvf.Spec.History

/-!
# An exhaustive index is a list of items

The reference is a list of items in insertion order: an insert appends, a delete filters, a search
sorts everything. A trained IVF-Flat index returns what the reference returns, call by call, as long
as its retrainings succeed; and when it probes every cluster its searches do too
(`exhaustive_flat_refines_store`).
-/

set_option linter.unusedSectionVars false

namespace IqdbIvf

open Outcome Ranking Selection Rational

variable {F32 : Type} [Arith F32] {X : Crates F32} {s t : IvfIndex X}

/-! ## The reference -/

namespace Store

/-- One call on the reference: its result, and the items that it leaves. -/
def step (dim n_clusters : ℕ) (op : Op X) (items : List (Item X)) :
    Except IqdbError Unit × List (Item X) :=
  match op with
  | .train _ => (.error (.invalidConfig
      "IvfIndex is already trained; use retrain() to rebuild centroids"), items)
  | .insert id vector metadata =>
    if vector.length ≠ dim then (.error (.dimensionMismatch dim vector.length), items)
    else if id ∈ items.map (·.id) then (.error .duplicate, items)
    else (.ok (), items ++ [⟨id, vector, metadata⟩])
  | .delete id =>
    if id ∈ items.map (·.id) then (.ok (), items.filter fun item => item.id ≠ id)
    else (.error .notFound, items)
  | .setNProbes n =>
    if n = 0 then (.error (.invalidConfig "IvfIndex::set_n_probes requires n >= 1"), items)
    else if n_clusters < n then
      (.error (.invalidConfig "IvfIndex::set_n_probes requires n <= n_clusters"), items)
    else (.ok (), items)
  | .setPqRefineFactor _ => (.ok (), items)
  | .retrain => (.ok (), items)

/-- A sequence of calls on the reference. -/
def run (dim n_clusters : ℕ) : List (Op X) → List (Item X) →
    List (Except IqdbError Unit) × List (Item X)
  | [], items => ([], items)
  | op :: ops, items =>
    let r := step dim n_clusters op items
    let rest := run dim n_clusters ops r.2
    (r.1 :: rest.1, rest.2)

/-- A search of the reference: the first `k` of the items that the filter keeps, sorted by distance;
the sort is stable, so items at one distance stay in insertion order. -/
def search (dist : List F32 → F32) (keep : Option X.Metadata → Bool) (k : ℕ)
    (items : List (Item X)) : List (Hit X) :=
  ((sort (fun a b => Arith.totalCmp (dist a.vector) (dist b.vector))
    (items.filter fun item => keep item.metadata)).take k).map fun item =>
      ⟨item.id, dist item.vector, item.metadata⟩

end Store

/-! ## The calls -/

/-- An update of a trained view without a quantizer is a call on its items. -/
theorem View.step_store {v : View X} (htrained : v.trained = true) (hpq : v.pq = none)
    (u : Update X) : ((v.step u).1, (v.step u).2.items) =
      Store.step v.dim v.cfg.n_clusters u.op v.items := by
  cases u with
  | edit e =>
    cases e with
    | insert id vector metadata =>
      -- Without a quantizer there is nothing that could fail.
      have hencode : v.encode vector = .ok none := by
        unfold View.encode
        rw [hpq]
      unfold View.step View.insert
      dsimp only
      rw [if_neg (Bool.ne_false_iff.2 htrained), hencode]
      show _ = if _ then _ else if _ then _ else _
      split_ifs <;> rfl
    | delete id =>
      unfold View.step View.delete
      dsimp only
      show _ = if _ then _ else _
      split_ifs <;> rfl
  | setNProbes n =>
    unfold View.step View.setNProbes
    dsimp only
    show _ = if _ then _ else if _ then _ else _
    split_ifs <;> rfl
  | setPqRefineFactor factor => rfl

/-- One update of an IVF-Flat index, when a stamp is left. -/
theorem Transition.store_update {u : Update X} {r : Except IqdbError Unit}
    (h : Transition s u.op r t) (hs : Inv s) (htrained : s.trained = true)
    (huse : s.cfg.use_pq = false) (hseq : s.next_seq + u.op.stamps < 2^64) :
    (r, t.items) = Store.step s.dim s.cfg.n_clusters u.op s.items := by
  have hview := h.view_step hs hseq
  have hpq : s.view.pq = none := (hs.pq_eq_none_iff htrained).2 huse
  have hstore := View.step_store (v := s.view) htrained hpq u
  rw [← hview] at hstore
  exact hstore

/-- One call of an IVF-Flat index, when a retraining succeeds and a stamp is left. -/
theorem Transition.store_step {op : Op X} {r : Except IqdbError Unit} (h : Transition s op r t)
    (hs : Inv s) (htrained : s.trained = true) (huse : s.cfg.use_pq = false)
    (hseq : s.next_seq + op.stamps < 2^64) (hretrain : op = .retrain → r = .ok ()) :
    (r, t.items) = Store.step s.dim s.cfg.n_clusters op s.items := by
  have hnever : s.trained ≠ false := Bool.ne_false_iff.2 htrained
  cases op with
  | train sample =>
    cases h with
    | trainTwice => rfl
    | trainKmeansFails sample e hfalse => exact absurd hfalse hnever
    | trainPqFails sample cs e hfalse => exact absurd hfalse hnever
    | trained sample cs pq hfalse => exact absurd hfalse hnever
  | insert id v m =>
    exact Transition.store_update (u := .edit (.insert id v m)) h hs htrained huse hseq
  | delete id => exact Transition.store_update (u := .edit (.delete id)) h hs htrained huse hseq
  | setNProbes n => exact Transition.store_update (u := .setNProbes n) h hs htrained huse hseq
  | setPqRefineFactor factor =>
    exact Transition.store_update (u := .setPqRefineFactor factor) h hs htrained huse hseq
  | retrain =>
    obtain rfl := hretrain rfl
    have hitems : t.items = s.items := h.items_of_ok hs
    rw [hitems]
    rfl

/-- Every retraining in a sequence of calls returned `Ok`. -/
def RetrainsOk (ops : List (Op X)) (rs : List (Except IqdbError Unit)) : Prop :=
  ∀ p ∈ ops.zip rs, p.1 = .retrain → p.2 = .ok ()

/-- A sequence of calls of an IVF-Flat index, when its retrainings succeed and the stamps suffice.
-/
theorem Transitions.store_run {ops : List (Op X)} {rs : List (Except IqdbError Unit)}
    (h : Transitions s ops rs t) (htrained : s.trained = true) (huse : s.cfg.use_pq = false)
    (hseq : s.next_seq + (ops.map Op.stamps).sum < 2^64) (hretrain : RetrainsOk ops rs) :
    (rs, t.items) = Store.run s.dim s.cfg.n_clusters ops s.items := by
  induction h with
  | nil => rfl
  | cons hs htransition hrest ih =>
    have hframe := htransition.frame
    have hstamps := htransition.next_seq_bounds.2
    rw [List.map_cons, List.sum_cons] at hseq
    obtain ⟨hhead, htail⟩ := List.forall_mem_cons.1 hretrain
    have hstep := htransition.store_step hs htrained huse (by omega) hhead
    have hrun := ih (hframe.trained htrained) (hframe.cfg.use_pq.trans huse) (by omega) htail
    rw [hframe.dim, hframe.cfg.n_clusters] at hrun
    unfold Store.run
    rw [← hstep]
    dsimp only
    rw [← hrun]

/-! ## The searches -/

section Search

variable {query : List F32} {dist : List F32 → F32} {exact : List F32 → Option F32}

/-- An index that probes as many clusters as there are probes every one of them. -/
theorem Inv.probed_all (h : Inv s) (htrained : s.trained = true)
    (hall : s.cfg.n_probes = s.cfg.n_clusters) {probed : List ℕ}
    (hprobed : s.view.probed exact = some probed) {c : ℕ} (hc : c < s.cfg.n_clusters) :
    c ∈ probed := by
  obtain ⟨centroids, hcentroids, rfl⟩ := Option.map_eq_some_iff.1 hprobed
  have hprobed : Probed s (fun c d => exact c = some d) (centroids.map fun p => p.1.2) :=
    probed_iff.2 ⟨centroids, hcentroids, rfl⟩
  obtain ⟨hnodup, hlt, hlen⟩ := hprobed.spec
  have hcs := (h.centroids htrained).length_eq
  -- Distinct numbers below the number of clusters, and as many of them.
  have hsub : (centroids.map fun p => p.1.2).Subperm (List.range s.cfg.n_clusters) := by
    apply hnodup.subperm
    intro i hi
    rw [List.mem_range, ← hcs]
    exact hlt i hi
  have hperm := hsub.perm_of_length_le (by
    rw [List.length_range, hlen, hcs, hall, Nat.min_self])
  exact hperm.mem_iff.2 (List.mem_range.2 hc)

/-- When every cluster is probed, the candidates are the items that the filter keeps. -/
theorem Inv.view_candidates_all (h : Inv s) (htrained : s.trained = true)
    (hall : s.cfg.n_probes = s.cfg.n_clusters) {probed : List ℕ}
    (hprobed : s.view.probed exact = some probed) (evaluator : Option X.FilterEvaluator) :
    s.view.candidates evaluator probed =
      s.items.zipIdx.filter fun p => keeps X evaluator p.1.metadata := by
  apply List.filter_congr
  intro p hp
  have hitem : p.1 ∈ s.items :=
    List.mem_of_getElem? (List.mem_zipIdx_iff_getElem?.1 hp)
  obtain ⟨e, he, hitem⟩ := List.mem_map.1 hitem
  have hdim : p.1.vector.length = s.dim := by
    rw [← hitem]
    exact h.live_dim he
  have hlt := ((h.centroids htrained).nearest_spec h.valid.one_le_n_clusters hdim).2
  have hmem : nearest s.view.centroids p.1.vector ∈ probed := h.probed_all htrained hall hprobed hlt
  rw [decide_eq_true hmem, Bool.true_and]

/-- Ranking items by distance and position is sorting them by distance. -/
theorem rank_items (dist : List F32 → F32) (keep : Option X.Metadata → Bool)
    (items : List (Item X)) :
    (rank Arith.totalCmp (fun p : Item X × ℕ => dist p.1.vector) Prod.snd
      (items.zipIdx.filter fun p => keep p.1.metadata)).map Prod.fst =
    sort (fun a b => Arith.totalCmp (dist a.vector) (dist b.vector))
      (items.filter fun item => keep item.metadata) := by
  have hsorted : (items.zipIdx.filter fun p => keep p.1.metadata).Pairwise
      fun p q => p.2 < q.2 := by
    have hrange : (items.zipIdx.map Prod.snd).Pairwise (· < ·) := by
      rw [List.zipIdx_map_snd]
      exact List.pairwise_lt_range'
    exact (List.pairwise_map.1 hrange).sublist List.filter_sublist
  have hfst : (items.zipIdx.filter fun p => keep p.1.metadata).map Prod.fst =
      items.filter fun item => keep item.metadata :=
    map_fst_filter_zipIdx items fun item => keep item.metadata
  rw [rank_eq_sort hsorted, ← hfst]
  exact map_sort Prod.fst _ fun _ _ _ _ => rfl

/-- What the view of an exhaustive IVF-Flat index answers. -/
theorem Inv.view_answer_exhaustive (h : Inv s) (htrained : s.trained = true)
    (huse : s.cfg.use_pq = false) (hall : s.cfg.n_probes = s.cfg.n_clusters)
    (hexact : ∀ v, exact v = some (dist v)) (evaluator : Option X.FilterEvaluator) (k : ℕ) :
    s.view.answer query exact evaluator k =
      some (Store.search dist (keeps X evaluator) k s.items) := by
  obtain ⟨centroids, hbest⟩ : ∃ centroids, best Arith.totalCmp
      (fun c : List F32 × ℕ => exact c.1) Prod.snd s.cfg.n_probes s.centroids.zipIdx =
        some centroids := exists_best fun c _ => by
    rw [hexact]
    exact Option.some_ne_none _
  have hprobed : s.view.probed exact = some (centroids.map fun p => p.1.2) :=
    Option.map_eq_some_iff.2 ⟨centroids, hbest, rfl⟩
  have hplan : s.view.plan query exact k = some (.direct fun p => exact p.1.vector) := by
    unfold View.plan
    show (if s.cfg.use_pq then _ else _) = _
    rw [huse, if_neg Bool.false_ne_true]
    rfl
  unfold View.answer
  rw [hprobed, hplan]
  simp only [Option.bind_eq_bind, Option.bind_some, Plan.run_direct]
  rw [h.view_candidates_all htrained hall hprobed, best_of_total fun p _ => hexact p.1.vector,
    Option.bind_some]
  unfold Store.search
  rw [← rank_items, ← List.map_take, List.map_map, List.map_map]
  rfl

/-- The searches of an exhaustive IVF-Flat index. -/
theorem Inv.search_exhaustive (h : Inv s) (htrained : s.trained = true)
    (huse : s.cfg.use_pq = false) (hall : s.cfg.n_probes = s.cfg.n_clusters)
    {score : List F32 → List F32 → F32}
    (hscore : ScoresEach X s.metric s.dim fun query v => some (score query v))
    (hq : query.length = s.dim) {params : SearchParams X} (hmetric : params.metric = s.metric)
    {evaluator : Option X.FilterEvaluator} (hfilter : evaluatorOf X params.filter = .ok evaluator) :
    s.search query params = .ok (Store.search (fun v => orient s.metric (score query v))
      (keeps X evaluator) params.k.toNat s.items) := by
  rcases search_cases_of_valid htrained hq hmetric hfilter with ⟨hstop, hsearch⟩ | hr
  · -- The search stops early because `k` is zero or there are no items.
    rw [hsearch]
    unfold Store.search
    rcases hstop with hk | hlive
    · rw [hk]
      rfl
    · have hitems : s.items = [] := by
        rw [← List.length_eq_zero_iff, h.length_items, hlive]
      rw [hitems]
      simp
  · -- The search reaches its passes.
    rw [search_view h hscore hr]
    exact h.view_answer_exhaustive htrained huse hall (fun _ => rfl) evaluator _

end Search

/-- A trained IVF-Flat index refines the list of its items: after any sequence of calls in which the
retrainings succeed and the stamps suffice, the results and the length are those of the reference,
and so are the searches when every cluster is probed. -/
theorem exhaustive_flat_refines_store {dim : ℕ} {metric : DistanceMetric} {cfg : IvfConfig}
    {s₀ : IvfIndex X} (hnew : IvfIndex.new X dim metric cfg = .ok s₀) (huse : cfg.use_pq = false)
    {sample : Slice (List F32)} (htrain : call (.train sample) s₀ = .ok (.ok (), s))
    {ops : List (Op X)} (hinserts : (ops.map Op.stamps).sum < 2^64 - 1)
    {score : List F32 → List F32 → F32}
    (hscore : ScoresEach X metric dim fun query v => some (score query v)) :
    ∃ rs t, calls ops s = .ok (rs, t) ∧ (RetrainsOk ops rs →
      rs = (Store.run dim cfg.n_clusters ops []).1 ∧
      t.len = (Store.run dim cfg.n_clusters ops []).2.length ∧
      (t.cfg.n_probes = t.cfg.n_clusters → ∀ (query : List F32) (params : SearchParams X)
        (evaluator : Option X.FilterEvaluator), query.length = dim → params.metric = metric →
        evaluatorOf X params.filter = .ok evaluator →
        t.search query params = .ok (Store.search (fun v => orient metric (score query v))
          (keeps X evaluator) params.k.toNat (Store.run dim cfg.n_clusters ops []).2))) := by
  have hinv₀ := Inv.new hnew
  obtain ⟨-, -, -, rfl⟩ := IvfIndex.new_eq_ok.1 hnew
  have htransition := transition_of_call hinv₀ htrain
  have hinv := htransition.inv hinv₀
  have hframe := htransition.frame
  have hdim : s.dim = dim := hframe.dim
  have hmetric : s.metric = metric := hframe.metric
  have hclusters : s.cfg.n_clusters = cfg.n_clusters := hframe.cfg.n_clusters
  have huse' : s.cfg.use_pq = false := hframe.cfg.use_pq.trans huse
  have hitems : s.items = [] := (htransition.items_of_ok hinv₀).trans (items_fresh dim metric cfg)
  have htrained : s.trained = true := by
    cases htransition with
    | trained => rfl
  have hseq : s.next_seq = 0 := Nat.le_zero.1 htransition.next_seq_bounds.2
  obtain ⟨rs, t, hcalls, -⟩ := hinv.calls_ok ops
  refine ⟨rs, t, hcalls, fun hretrains => ?_⟩
  have htransitions := transitions_of_calls hinv hcalls
  have hinv' := htransitions.inv
  have hframe' := htransitions.frame
  have hrun := htransitions.store_run htrained huse' (by omega) hretrains
  rw [hdim, hclusters, hitems] at hrun
  rw [← hrun]
  refine ⟨rfl, hinv'.length_items.symm, ?_⟩
  intro hall query params evaluator hq hm hfilter
  have hdim' : t.dim = dim := hframe'.dim.trans hdim
  have hmetric' : t.metric = metric := hframe'.metric.trans hmetric
  rw [← hdim'] at hq
  rw [← hmetric'] at hm
  rw [← hdim', ← hmetric'] at hscore
  rw [← hmetric']
  exact hinv'.search_exhaustive (hframe'.trained htrained) (hframe'.cfg.use_pq.trans huse') hall
    hscore hq hm hfilter

/-- A history with a retraining, a duplicate and a delete. -/
def flatHistory : List (Op crates) := [.insert 3 [1] none, .insert 4 [9] (some 5), .retrain,
  .insert 3 [7] none, .delete 3, .insert 5 [2] (some 5)]

/-- The history of the trained two-cluster index, against the reference. -/
theorem flatHistory_refines_store :
    ∃ rs t, calls flatHistory flatTrained = .ok (rs, t) ∧ (RetrainsOk flatHistory rs →
      rs = (Store.run 1 2 flatHistory []).1 ∧
      t.len = (Store.run 1 2 flatHistory []).2.length ∧
      (t.cfg.n_probes = t.cfg.n_clusters → ∀ (query : List ℚ) (params : SearchParams crates)
        (evaluator : Option crates.FilterEvaluator), query.length = 1 →
        params.metric = .manhattan → evaluatorOf crates params.filter = .ok evaluator →
        t.search query params = .ok (Store.search (fun v => orient .manhattan (manhattan query v))
          (keeps crates evaluator) params.k.toNat (Store.run 1 2 flatHistory []).2))) :=
  exhaustive_flat_refines_store flatIndex_new rfl flatTrained_eq (by decide)
    (scoresEach .manhattan 1)

end IqdbIvf
