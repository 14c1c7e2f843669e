import IqdbIvf.Lib.Machine
import IqdbIvf.Spec.Store

/-!
# The index as a list of items under a model

The abstract machine keeps a view: the configuration, the model, and the items in insertion order.
Its steps say what each call is for, the failing exits of `train` and `retrain` included, and know
nothing of lists, id maps, stamps or stored codes. While the stamps suffice, an index answers every
history of calls as this machine does, and shows what the machine shows: its length, the sizes of
its clusters, and the outcome of every search (`index_refines_view`).
-/

set_option linter.unusedSectionVars false

namespace IqdbIvf

open Outcome Selection Rational

variable {F32 : Type} [Arith F32] {X : Crates F32} {s t : IvfIndex X}

/-! ## The abstract machine -/

/-- The centroids that k-means computes from a sample, or the error of its checks. -/
def clusterings (dim n_clusters : ℕ) (seed : UInt64) (sample : List (List F32)) (cap : ℕ) :
    Except IqdbError (List (List F32)) := do
  trainPrechecks dim n_clusters sample
  return (trainKmeans dim n_clusters seed sample cap).toOption.getD []

namespace View

/-- The quantizer after a training on a sample. -/
def codebooks (v : View X) (sample : List (List F32)) :
    Except IqdbError (Option X.ProductQuantizer) :=
  if v.cfg.use_pq then (trainPq X v.cfg sample).map some else .ok v.pq

/-- A training, seen through the view. -/
def train (v : View X) (sample : List (List F32)) : Except IqdbError Unit × View X :=
  if v.trained = true then
    (.error (.invalidConfig "IvfIndex is already trained; use retrain() to rebuild centroids"), v)
  else
    match clusterings v.dim v.cfg.n_clusters v.cfg.seed sample v.cfg.training_sample_size with
    | .error e => (.error e, v)
    | .ok cs =>
      -- The centroids stay when the quantizer cannot be trained.
      match v.codebooks sample with
      | .error e => (.error e, { v with centroids := cs })
      | .ok pq => (.ok (), { v with centroids := cs, pq := pq, trained := true })

/-- The items up to the first one that the quantizer does not encode, and its error. -/
def encodable (v : View X) : List (Item X) → Except IqdbError Unit × List (Item X)
  | [] => (.ok (), [])
  | item :: rest =>
    match v.encode item.vector with
    | .error e => (.error e, [])
    | .ok _ => ((v.encodable rest).1, item :: (v.encodable rest).2)

/-- The working set of a retraining, from the view. -/
def sample (v : View X) : List (List F32) := workingSet v.cfg (v.items.map (·.vector))

/-- A retraining, seen through the view. A failure loses the items that were not stored again. -/
def retrain (v : View X) : Except IqdbError Unit × View X :=
  if v.trained = false then
    (.error (.invalidConfig "IvfIndex must be trained before retrain()"), v)
  else if v.items = [] then (.ok (), v)
  else
    match clusterings v.dim v.cfg.n_clusters v.cfg.seed v.sample v.sample.length with
    | .error e => (.error e, { v with items := [] })
    | .ok cs =>
      match v.codebooks v.sample with
      | .error e => (.error e, { v with centroids := cs, items := [] })
      | .ok pq =>
        let renewed : View X := { v with centroids := cs, pq := pq }
        ((renewed.encodable v.items).1, { renewed with items := (renewed.encodable v.items).2 })

/-- A call, seen through the view, while stamps are left. -/
def call (v : View X) : Op X → Except IqdbError Unit × View X
  | .train sample => v.train sample.1
  | .insert id vector metadata => v.insert id vector metadata
  | .delete id => v.delete id
  | .setNProbes n => v.setNProbes n
  | .setPqRefineFactor factor =>
    (.ok (), { v with cfg := { v.cfg with pq_refine_factor := factor } })
  | .retrain => v.retrain

/-- A constructed index, seen through the view. -/
def fresh (X : Crates F32) (dim : ℕ) (metric : DistanceMetric) (cfg : IvfConfig) : View X where
  dim := dim
  metric := metric
  cfg := cfg
  trained := false
  centroids := []
  pq := none
  items := []

/-- The number of items of each cluster. -/
def sizes (v : View X) : List ℕ :=
  (List.range v.cfg.n_clusters).map fun c =>
    v.items.countP fun item => nearest v.centroids item.vector = c

/-- The outcome of a search: the error or the hits, and `none` when a score that it needs cannot be
computed. -/
def search (v : View X) (score : List F32 → List F32 → Option F32) (query : List F32)
    (params : SearchParams X) : Option (Except IqdbError (List (Hit X))) :=
  if v.trained = false then some (.error (.invalidConfig "IvfIndex must be trained before use"))
  else if query.length ≠ v.dim then some (.error (.dimensionMismatch v.dim query.length))
  else if params.metric ≠ v.metric then some (.error .invalidMetric)
  else if params.k = 0 ∨ v.items = [] then some (.ok [])
  else match evaluatorOf X params.filter with
    | .error e => some (.error e)
    | .ok evaluator =>
      (v.answer query (exactScore v.metric score query) evaluator params.k.toNat).map .ok

end View

/-! ## The steps of the index -/

/-- A k-means training that returns centroids. -/
theorem clusterings_of_ok {dim n_clusters cap : ℕ} {seed : UInt64} {sample cs : List (List F32)}
    (h : trainKmeans dim n_clusters seed sample cap = .ok cs) :
    clusterings dim n_clusters seed sample cap = .ok cs := by
  unfold clusterings
  cases hpre : trainPrechecks dim n_clusters sample with
  | error e =>
    rw [trainKmeans_of_precheck_error hpre] at h
    cases h
  | ok u =>
    rw [h]
    rfl

/-- A k-means training whose checks fail. -/
theorem clusterings_of_error {dim n_clusters : ℕ} (cap : ℕ) (seed : UInt64)
    {sample : List (List F32)} {e : IqdbError}
    (h : trainPrechecks dim n_clusters sample = .error e) :
    clusterings dim n_clusters seed sample cap = .error e := by
  unfold clusterings
  rw [h]
  rfl

namespace View

variable {v : View X}

/-- The quantizer that a training stage leaves. -/
theorem codebooks_of_trainsPq {sample : List (List F32)} {pq : Option X.ProductQuantizer}
    (h : TrainsPq v.cfg sample v.pq pq) : v.codebooks sample = .ok pq := by
  unfold codebooks
  rcases h with ⟨huse, q, hq, rfl⟩ | ⟨huse, rfl⟩
  · rw [if_pos huse, hq]
    rfl
  · rw [huse, if_neg Bool.false_ne_true]

/-- A training stage whose quantizer fails. -/
theorem codebooks_of_error {sample : List (List F32)} {e : IqdbError} (huse : v.cfg.use_pq = true)
    (h : trainPq X v.cfg sample = .error e) : v.codebooks sample = .error e := by
  unfold codebooks
  rw [if_pos huse, h]
  rfl

/-- Items that are all encoded. -/
theorem encodable_of_ok {items : List (Item X)}
    (h : ∀ item ∈ items, ∃ code, v.encode item.vector = .ok code) :
    v.encodable items = (.ok (), items) := by
  induction items with
  | nil => rfl
  | cons item rest ih =>
    obtain ⟨⟨code, hcode⟩, hrest⟩ := List.forall_mem_cons.1 h
    unfold encodable
    rw [hcode, ih hrest]

/-- Items up to one that is not encoded. -/
theorem encodable_of_error {done rest : List (Item X)} {item : Item X} {e : IqdbError}
    (hdone : ∀ item ∈ done, ∃ code, v.encode item.vector = .ok code)
    (h : v.encode item.vector = .error e) :
    v.encodable (done ++ item :: rest) = (.error e, done) := by
  induction done with
  | nil =>
    rw [List.nil_append, encodable, h]
  | cons first done ih =>
    obtain ⟨⟨code, hcode⟩, hdone⟩ := List.forall_mem_cons.1 hdone
    rw [List.cons_append, encodable, hcode, ih hdone]

end View

/-- An index that was emptied and filled again, seen through the view. -/
theorem view_placeAll (s : IvfIndex X) (cs : List (List F32)) (pq : Option X.ProductQuantizer)
    (done : List (InvertedListEntry X)) :
    ((s.drained cs pq).placeAll done).view = { s.view with
      centroids := cs, pq := pq, items := ((s.drained cs pq).placeAll done).items } := by
  have hframe := IvfIndex.placeAll_eq (s.drained cs pq) done
  unfold IvfIndex.view
  rw [hframe]
  rfl

/-- The training of a view, in terms of the index. -/
theorem view_train_eq (s : IvfIndex X) (sample : List (List F32)) :
    s.view.train sample =
      if s.trained = true then (.error (.invalidConfig
        "IvfIndex is already trained; use retrain() to rebuild centroids"), s.view)
      else match clusterings s.dim s.cfg.n_clusters s.cfg.seed sample
          s.cfg.training_sample_size with
        | .error e => (.error e, s.view)
        | .ok cs => match s.view.codebooks sample with
          | .error e => (.error e, { s.view with centroids := cs })
          | .ok pq => (.ok (), { s.view with centroids := cs, pq := pq, trained := true }) := rfl

/-- A training, seen through the view. -/
theorem Transition.view_train {sample : Slice (List F32)} {r : Except IqdbError Unit}
    (h : Transition s (.train sample) r t) : (r, t.view) = s.view.train sample.1 := by
  have hnever : s.trained = false → ¬ s.trained = true := Bool.eq_false_iff.1
  rw [view_train_eq]
  cases h with
  | trainTwice _ htrained => rw [if_pos htrained]
  | trainKmeansFails _ e htrained hkmeans =>
    rw [if_neg (hnever htrained), clusterings_of_error _ _ hkmeans]
  | trainPqFails _ cs e htrained hkmeans huse hpq =>
    have hbooks : s.view.codebooks sample.1 = .error e := View.codebooks_of_error huse hpq
    rw [if_neg (hnever htrained), clusterings_of_ok hkmeans]
    simp only [hbooks]
    rfl
  | trained _ cs pq htrained hkmeans hpq =>
    have hbooks : s.view.codebooks sample.1 = .ok pq := View.codebooks_of_trainsPq hpq
    rw [if_neg (hnever htrained), clusterings_of_ok hkmeans]
    simp only [hbooks]
    rfl

/-- The items that a retraining stores again when it stops at an entry. -/
theorem encodable_live_of_error {cs : List (List F32)} {pq : Option X.ProductQuantizer}
    {done rest : List (InvertedListEntry X)} {entry : InvertedListEntry X} {e : IqdbError}
    (hsplit : s.live = done ++ entry :: rest)
    (hdone : ∀ x ∈ done, (s.drained cs pq).Encodes x.vector)
    (hcode : (s.drained cs pq).encode entry.vector = .error e) :
    View.encodable { s.view with centroids := cs, pq := pq } s.items =
      (.error e, done.map (·.item)) := by
  have hitems : s.items = done.map (·.item) ++ entry.item :: rest.map (·.item) := by
    unfold IvfIndex.items
    rw [hsplit, List.map_append, List.map_cons]
  have hfails : View.encode { s.view with centroids := cs, pq := pq } entry.item.vector =
      .error e := hcode
  rw [hitems]
  apply View.encodable_of_error _ hfails
  intro item hitem
  obtain ⟨x, hx, rfl⟩ := List.mem_map.1 hitem
  exact hdone x hx

/-- The items that a retraining stores again when it does not stop. -/
theorem encodable_live_of_ok {cs : List (List F32)} {pq : Option X.ProductQuantizer}
    (hcode : ∀ x ∈ s.live, (s.drained cs pq).Encodes x.vector) :
    View.encodable { s.view with centroids := cs, pq := pq } s.items = (.ok (), s.items) := by
  apply View.encodable_of_ok
  intro item hitem
  obtain ⟨x, hx, rfl⟩ := List.mem_map.1 hitem
  exact hcode x hx

/-- The vectors of the items are those of the live entries. -/
theorem IvfIndex.items_vectors (s : IvfIndex X) :
    s.items.map (·.vector) = s.live.map (·.vector) := by
  unfold IvfIndex.items
  rw [List.map_map]
  rfl

/-- The retraining of a view, in terms of the index. -/
theorem view_retrain_eq (s : IvfIndex X) :
    s.view.retrain =
      if s.trained = false then
        (.error (.invalidConfig "IvfIndex must be trained before retrain()"), s.view)
      else if s.items = [] then (.ok (), s.view)
      else match clusterings s.dim s.cfg.n_clusters s.cfg.seed s.sample s.sample.length with
        | .error e => (.error e, { s.view with items := [] })
        | .ok cs => match s.view.codebooks s.sample with
          | .error e => (.error e, { s.view with centroids := cs, items := [] })
          | .ok pq =>
            let renewed : View X := { s.view with centroids := cs, pq := pq }
            ((renewed.encodable s.items).1,
              { renewed with items := (renewed.encodable s.items).2 }) := by
  have hsample : s.sample = s.view.sample := by
    unfold IvfIndex.sample View.sample
    rw [← s.items_vectors]
    rfl
  rw [hsample]
  rfl

/-- A retraining, seen through the view. -/
theorem Transition.view_retrain {r : Except IqdbError Unit} (h : Transition s .retrain r t)
    (hs : Inv s) : (r, t.view) = s.view.retrain := by
  have hnever : s.trained = true → ¬ s.trained = false := Bool.ne_false_iff.2
  have hne : s.live_count ≠ 0 → ¬ s.items = [] := by
    intro hlive hnil
    rw [← hs.length_items, hnil] at hlive
    exact hlive rfl
  -- The entries that are stored again, as items.
  have hplaced : ∀ {cs pq done}, s.trained = true → s.recluster = .ok cs →
      TrainsPq s.cfg s.sample s.pq pq → done.Sublist s.live →
      (∀ x ∈ done, (s.drained cs pq).Encodes x.vector) →
      ((s.drained cs pq).placeAll done).items = done.map (·.item) := by
    intro cs pq done htrained hkmeans hpq hsub hcode
    unfold IvfIndex.items
    rw [hs.live_placeAll htrained (hs.centroids_of_recluster hkmeans) hpq hsub hcode, List.map_map]
    rfl
  have hdrained : ∀ cs pq, (s.drained cs pq).view =
      { s.view with centroids := cs, pq := pq, items := [] } := by
    intro cs pq
    have hnil : (s.drained cs pq).items = [] := by
      unfold IvfIndex.items IvfIndex.live
      rw [IvfIndex.drained_entries]
      rfl
    unfold IvfIndex.view
    rw [hnil]
    rfl
  rw [view_retrain_eq]
  cases h with
  | retrainUntrained htrained => rw [if_pos htrained]
  | retrainEmpty htrained hlive =>
    have hnil : s.items = [] := List.length_eq_zero_iff.1 (hs.length_items.trans hlive)
    rw [if_neg (hnever htrained), if_pos hnil]
  | retrainKmeansFails e htrained hlive hkmeans =>
    rw [if_neg (hnever htrained), if_neg (hne hlive), clusterings_of_error _ _ hkmeans, hdrained]
    rfl
  | retrainPqFails cs e htrained hlive hkmeans huse hpq =>
    have hbooks : s.view.codebooks s.sample = .error e := View.codebooks_of_error huse hpq
    rw [if_neg (hnever htrained), if_neg (hne hlive), clusterings_of_ok hkmeans, hdrained]
    simp only [hbooks]
    rfl
  | retrainEncodeFails cs pq done rest entry e htrained hlive hkmeans hpq hsplit hdone hcode =>
    have hbooks : s.view.codebooks s.sample = .ok pq := View.codebooks_of_trainsPq hpq
    have hsub : done.Sublist s.live := by
      rw [hsplit]
      exact List.sublist_append_left _ _
    have hencodable := encodable_live_of_error hsplit hdone hcode
    rw [if_neg (hnever htrained), if_neg (hne hlive), clusterings_of_ok hkmeans, view_placeAll,
      hplaced htrained hkmeans hpq hsub hdone]
    simp only [hbooks, hencodable]
  | retrained cs pq htrained hlive hkmeans hpq hcode =>
    have hbooks : s.view.codebooks s.sample = .ok pq := View.codebooks_of_trainsPq hpq
    have hencodable := encodable_live_of_ok hcode
    rw [if_neg (hnever htrained), if_neg (hne hlive), clusterings_of_ok hkmeans, view_placeAll,
      hplaced htrained hkmeans hpq (List.Sublist.refl _) hcode]
    simp only [hbooks, hencodable]
    rfl

/-- A call, seen through the view, while stamps are left. -/
theorem Transition.view_call {op : Op X} {r : Except IqdbError Unit} (h : Transition s op r t)
    (hs : Inv s) (hseq : s.next_seq + op.stamps < 2^64) : (r, t.view) = s.view.call op := by
  cases op with
  | train sample => exact h.view_train
  | insert id v m => exact h.view_insert hs hseq
  | delete id => exact h.view_delete hs
  | setNProbes n => exact h.view_setNProbes
  | setPqRefineFactor factor =>
    exact Transition.view_step (u := .setPqRefineFactor factor) h hs hseq
  | retrain => exact h.view_retrain hs

/-- A history of calls, seen through the view, while the stamps suffice. -/
theorem Inv.view_calls (h : Inv s) {ops : List (Op X)}
    (hseq : s.next_seq + (ops.map Op.stamps).sum < 2^64) :
    ∃ t, calls ops s = .ok ((Machine.run View.call s.view ops).1, t) ∧ Inv t ∧
      t.view = (Machine.run View.call s.view ops).2 := by
  induction ops generalizing s with
  | nil => exact ⟨s, rfl, h, rfl⟩
  | cons op ops ih =>
    obtain ⟨r, s', hcall, htransition⟩ := call_transition h op
    have hstamps := htransition.next_seq_bounds.2
    rw [List.map_cons, List.sum_cons] at hseq
    have hstep := htransition.view_call h (by omega)
    obtain ⟨t, hcalls, hinv, hview⟩ := ih (htransition.inv h) (by omega)
    rw [Machine.run_cons, ← hstep]
    refine ⟨t, ?_, hinv, hview⟩
    rw [calls, hcall]
    simp only [ok_bind, hcalls]
    rfl

/-! ## What the index shows -/

section Shows

variable {score : List F32 → List F32 → Option F32} {query : List F32} {params : SearchParams X}

/-- The sizes of the clusters, from the view. -/
theorem Inv.sizes_view (h : Inv s) : s.inverted_lists.map List.length = s.view.sizes := by
  have hnear : ∀ c e, Buckets.Holds s.inverted_lists c e → nearest s.centroids e.vector = c :=
    fun c e he => h.nearest_of_holds he
  rw [Buckets.map_length_eq s.inverted_lists _ hnear, h.lists_length]
  apply List.map_congr_left
  intro c _
  show s.entries.countP _ = (s.live.map (·.item)).countP _
  rw [List.countP_map, s.live_perm.countP_eq]
  rfl

/-- An index without live vectors has no items. -/
theorem Inv.live_count_eq_zero_iff (h : Inv s) : s.live_count = 0 ↔ s.items = [] := by
  rw [← h.length_items, List.length_eq_zero_iff]

/-- The search of a view, in terms of the index. -/
theorem view_search_eq (s : IvfIndex X) (score : List F32 → List F32 → Option F32)
    (query : List F32) (params : SearchParams X) :
    s.view.search score query params =
      if s.trained = false then
        some (.error (.invalidConfig "IvfIndex must be trained before use"))
      else if query.length ≠ s.dim then some (.error (.dimensionMismatch s.dim query.length))
      else if params.metric ≠ s.metric then some (.error .invalidMetric)
      else if params.k = 0 ∨ s.items = [] then some (.ok [])
      else match evaluatorOf X params.filter with
        | .error e => some (.error e)
        | .ok evaluator => (s.view.answer query (exactScore s.metric score query) evaluator
            params.k.toNat).map .ok := rfl

/-- A search that stops at its gate, from the view. -/
theorem Inv.view_search_of_gate (h : Inv s) {r : Except IqdbError (List (Hit X))}
    (hr : s.gate query params = some r) : s.view.search score query params = some r := by
  have hlive := h.live_count_eq_zero_iff
  rw [view_search_eq]
  unfold IvfIndex.gate at hr
  cases htrained : s.trained with
  | false =>
    rw [htrained, Bool.not_false, if_pos rfl] at hr
    rw [if_pos rfl, hr]
  | true =>
    rw [htrained, Bool.not_true, if_neg Bool.false_ne_true] at hr
    rw [if_neg Bool.false_ne_true.symm]
    split_ifs at hr with hdim hmetric hstop
    · rw [if_pos hdim, hr]
    · rw [if_neg hdim, if_pos hmetric, hr]
    · rw [hlive] at hstop
      rw [if_neg hdim, if_neg hmetric, if_pos hstop, hr]
    · rw [hlive] at hstop
      rw [if_neg hdim, if_neg hmetric, if_neg hstop]
      cases hfilter : evaluatorOf X params.filter with
      | error e =>
        rw [hfilter] at hr
        exact hr
      | ok evaluator =>
        rw [hfilter] at hr
        cases hr

/-- A search that reaches its passes, from the view. -/
theorem Inv.view_search_of_reaches (h : Inv s) {evaluator : Option X.FilterEvaluator}
    (hr : Reaches s query params evaluator) : s.view.search score query params =
      (s.view.answer query (exactScore s.metric score query) evaluator params.k.toNat).map .ok := by
  have hitems : ¬ s.items = [] := fun hnil => hr.live (h.live_count_eq_zero_iff.2 hnil)
  have htrained : ¬ s.trained = false := Bool.ne_false_iff.2 hr.trained
  rw [view_search_eq, if_neg htrained, if_neg (not_not.2 hr.dim), if_neg (not_not.2 hr.metric),
    if_neg (not_or.2 ⟨hr.k_ne_zero, hitems⟩), hr.filter]

/-- What an index shows its callers is what a view says. -/
structure Shows (score : List F32 → List F32 → Option F32) (s : IvfIndex X) (v : View X) :
    Prop where
  len : s.len = v.items.length
  sizes : s.inverted_lists.map List.length = v.sizes
  search : ∀ query params r, v.search score query params = some r →
    s.search query params = r.mapError .err
  search_fails : ∀ query params, v.search score query params = none →
    ∃ e, s.search query params = .error (.err e)

/-- An index shows its view. -/
theorem Inv.shows (h : Inv s) (hs : ScoresEach X s.metric s.dim score) :
    Shows score s s.view := by
  refine ⟨h.length_items.symm, h.sizes_view, ?_, ?_⟩
  · intro query params r hr
    rcases search_cases s query params with ⟨r', hgate, hsearch⟩ | ⟨evaluator, hreach⟩
    · rw [h.view_search_of_gate hgate] at hr
      obtain rfl := Option.some.inj hr
      exact hsearch
    · rw [h.view_search_of_reaches hreach] at hr
      obtain ⟨hits, hanswer, rfl⟩ := Option.map_eq_some_iff.1 hr
      exact (search_view h hs hreach).2 hanswer
  · intro query params hnone
    rcases search_cases s query params with ⟨r', hgate, hsearch⟩ | ⟨evaluator, hreach⟩
    · rw [h.view_search_of_gate hgate] at hnone
      cases hnone
    · rw [h.view_search_of_reaches hreach, Option.map_eq_none_iff] at hnone
      -- The search has no hits to return, and does not panic.
      cases hsearch : s.search query params with
      | ok hits =>
        rw [search_view h hs hreach, hnone] at hsearch
        cases hsearch
      | error f =>
        have herr := (search_meets_answer h hs hreach).of_error hsearch
        cases f with
        | err e => exact ⟨e, rfl⟩
        | panic p => exact absurd herr.1 id

/-- Nobody can tell two indexes apart by their lengths, their cluster sizes and their searches. -/
structure Indistinguishable (s t : IvfIndex X) : Prop where
  len : s.len = t.len
  sizes : s.inverted_lists.map List.length = t.inverted_lists.map List.length
  search : ∀ query params hits,
    s.search query params = .ok hits ↔ t.search query params = .ok hits

/-- Two indexes whose views show the same cannot be told apart. -/
theorem Shows.indistinguishable {v w : View X} (h : Shows score s v) (h' : Shows score t w)
    (hlen : v.items.length = w.items.length) (hsizes : v.sizes = w.sizes)
    (hsearch : ∀ query params, v.search score query params = w.search score query params) :
    Indistinguishable s t := by
  refine ⟨?_, ?_, ?_⟩
  · rw [h.len, h'.len, hlen]
  · rw [h.sizes, h'.sizes, hsizes]
  · intro query params hits
    cases hv : v.search score query params with
    | some r =>
      have hw := (hsearch query params).symm.trans hv
      rw [h.search query params r hv, h'.search query params r hw]
    | none =>
      obtain ⟨e, he⟩ := h.search_fails query params hv
      obtain ⟨e', he'⟩ := h'.search_fails query params ((hsearch query params).symm.trans hv)
      rw [he, he']
      simp only [reduceCtorEq]

end Shows

/-- After a history of calls an index shows the view that the abstract machine is in after it. -/
theorem Inv.calls_show (h : Inv s) (hscore : ScoresEach X s.metric s.dim score) (ops : List (Op X))
    (hseq : s.next_seq + (ops.map Op.stamps).sum < 2^64) :
    ∃ t, calls ops s = .ok ((Machine.run View.call s.view ops).1, t) ∧
      Shows score t (Machine.run View.call s.view ops).2 := by
  obtain ⟨t, hcalls, ht, hview⟩ := h.view_calls hseq
  have hframe := (h.frame_of_calls hcalls).2
  rw [← hframe.metric, ← hframe.dim] at hscore
  refine ⟨t, hcalls, ?_⟩
  rw [← hview]
  exact ht.shows hscore

/-- A constructed index has the view of the abstract machine's start. -/
theorem view_fresh {dim : ℕ} {metric : DistanceMetric} {cfg : IvfConfig} {s₀ : IvfIndex X}
    (hnew : IvfIndex.new X dim metric cfg = .ok s₀) : s₀.view = View.fresh X dim metric cfg := by
  obtain ⟨-, -, -, rfl⟩ := IvfIndex.new_eq_ok.1 hnew
  unfold IvfIndex.view
  rw [items_fresh]
  rfl

/-- The index refines the abstract machine: while the stamps suffice, every history of calls of a
constructed index is answered as the machine answers it, the failing calls included, and at its end
the index shows the view that the machine is in. -/
theorem index_refines_view {dim : ℕ} {metric : DistanceMetric} {cfg : IvfConfig}
    {s₀ : IvfIndex X} (hnew : IvfIndex.new X dim metric cfg = .ok s₀)
    {score : List F32 → List F32 → Option F32} (hscore : ScoresEach X metric dim score)
    {ops : List (Op X)} (hseq : (ops.map Op.stamps).sum < 2^64) :
    ∃ t, calls ops s₀ =
        .ok ((Machine.run View.call (View.fresh X dim metric cfg) ops).1, t) ∧
      Shows score t (Machine.run View.call (View.fresh X dim metric cfg) ops).2 := by
  have hinv := Inv.new hnew
  rw [← view_fresh hnew]
  obtain ⟨-, -, -, rfl⟩ := IvfIndex.new_eq_ok.1 hnew
  have hstart : (IvfIndex.fresh X dim metric cfg).next_seq = 0 := rfl
  exact hinv.calls_show hscore ops (by rwa [hstart, Nat.zero_add])

/-- A history whose last call loses the items: a retraining with too few vectors for the quantizer.
-/
def losingCalls : List (Op crates) := pqCalls ++ [.insert 3 [2] none, .retrain]

/-- The history of the IVF-PQ index, against the abstract machine. -/
theorem losingCalls_refine_view :
    ∃ t, calls losingCalls pqIndex =
        .ok ((Machine.run View.call (View.fresh crates 1 .manhattan pqConfig) losingCalls).1, t) ∧
      Shows (distance .manhattan) t
        (Machine.run View.call (View.fresh crates 1 .manhattan pqConfig) losingCalls).2 :=
  index_refines_view pqIndex_new (scoresEach .manhattan 1) (by decide)

end IqdbIvf
