import IqdbIvf.Spec.Abstraction
import IqdbIvf.Spec.Rotation

/-!
# An index of rotated vectors

Over exact arithmetic, an IVF-Flat index does not notice that all its vectors are rotated: the
samples, the inserted vectors and the queries. It is trained to the rotated centroids, answers every
call as before, puts every vector into the list that it was in before, and returns the same hits as
long as the distance crate scores rotated vectors as it scores the vectors (`rotation_equivariant`).
-/

set_option linter.unusedSectionVars false

namespace IqdbIvf

open Outcome KMeans Selection Rational

section Rotated

variable {K : Type} [Field K] [LinearOrder K] [IsStrictOrderedRing K] [SquareRoot K]
  {X : Crates K} {v w : View X} (ρ : Rotation K)

/-! ## Rotated arguments -/

/-- The item with its vector rotated. -/
def Item.rotate (item : Item X) : Item X := ⟨item.id, ρ item.vector, item.metadata⟩

/-- The call with its vectors rotated. -/
def Op.rotate : Op X → Op X
  | .train sample => .train ⟨sample.1.map ρ, by rw [List.length_map]; exact sample.2⟩
  | .insert id vector metadata => .insert id (ρ vector) metadata
  | op => op

/-- Rotated calls take the same stamps. -/
theorem stamps_rotate (op : Op X) : (op.rotate ρ).stamps = op.stamps := by
  cases op with
  | _ => rfl

/-- The centroids of a rotated sample, or the same error. -/
theorem clusterings_rotate {dim k : ℕ} (hk : 1 ≤ k) (seed : UInt64) (sample : List (List K))
    (cap : ℕ) : clusterings dim k seed (sample.map ρ) cap =
      (clusterings dim k seed sample cap).map (List.map ρ) := by
  unfold clusterings
  rw [trainPrechecks_rotate, trainKmeans_rotate ρ hk, image_bind]
  congr 1
  funext _
  cases trainKmeans dim k seed sample cap with
  | ok cs => rfl
  | error f => rfl

/-- The working set of a retraining on rotated vectors. -/
theorem workingSet_rotate (cfg : IvfConfig) (vectors : List (List K)) :
    workingSet cfg (vectors.map ρ) = (workingSet cfg vectors).map ρ := by
  unfold workingSet
  rw [List.length_map, subsampleRefs_map]
  cases subsampleRefs vectors (min cfg.training_sample_size vectors.length) (.new cfg.seed) with
  | ok r => rfl
  | error p => rfl

namespace View

/-- The view with its vectors rotated. -/
abbrev rotate (v : View X) : View X :=
  { v with centroids := v.centroids.map ρ, items := v.items.map (Item.rotate ρ) }

/-- The view of an IVF-Flat index. -/
structure Flat (v : View X) : Prop where
  use_pq : v.cfg.use_pq = false
  pq : v.pq = none
  one_le_n_clusters : 1 ≤ v.cfg.n_clusters

/-- Rotation keeps the ids. -/
@[simp] theorem rotate_ids :
    (v.items.map (Item.rotate ρ)).map (·.id) = v.items.map (·.id) := by
  rw [List.map_map]
  rfl

/-- Rotation rotates the working set of a retraining. -/
theorem sample_rotate : (v.rotate ρ).sample = v.sample.map ρ := by
  have hvectors : (v.items.map (Item.rotate ρ)).map (·.vector) =
      (v.items.map (·.vector)).map ρ := by
    rw [List.map_map, List.map_map]
    rfl
  unfold sample
  dsimp only
  rw [hvectors, workingSet_rotate]

/-- The model of an IVF-Flat index has no quantizer. -/
theorem Flat.codebooks (h : v.Flat) (sample : List (List K)) : v.codebooks sample = .ok none := by
  unfold View.codebooks
  rw [h.use_pq, if_neg Bool.false_ne_true, h.pq]

/-- Without a quantizer every vector is encoded. -/
theorem encode_of_none (hpq : v.pq = none) (vector : List K) : v.encode vector = .ok none := by
  unfold encode
  rw [hpq]

/-- Without a quantizer a retraining stores every item again. -/
theorem encodable_of_none (hpq : v.pq = none) (items : List (Item X)) :
    v.encodable items = (.ok (), items) :=
  encodable_of_ok fun item _ => ⟨none, encode_of_none hpq item.vector⟩

/-! ## Calls -/

/-- A training on a rotated sample. -/
theorem train_rotate (h : v.Flat) (sample : List (List K)) :
    (v.rotate ρ).train (sample.map ρ) = ((v.train sample).1, (v.train sample).2.rotate ρ) := by
  have hbooks : (v.rotate ρ).codebooks (sample.map ρ) = .ok none :=
    Flat.codebooks ⟨h.use_pq, h.pq, h.one_le_n_clusters⟩ _
  unfold train
  rw [hbooks, h.codebooks]
  dsimp only
  by_cases htrained : v.trained = true
  · rw [if_pos htrained, if_pos htrained]
  · rw [if_neg htrained, if_neg htrained, clusterings_rotate ρ h.one_le_n_clusters]
    cases clusterings v.dim v.cfg.n_clusters v.cfg.seed sample v.cfg.training_sample_size with
    | error e => rfl
    | ok cs => rfl

/-- A retraining on rotated items. -/
theorem retrain_rotate (h : v.Flat) :
    (v.rotate ρ).retrain = (v.retrain.1, v.retrain.2.rotate ρ) := by
  have hnil : v.items.map (Item.rotate ρ) = [] ↔ v.items = [] := List.map_eq_nil_iff
  have hbooks : ∀ sample, (v.rotate ρ).codebooks sample = .ok none :=
    Flat.codebooks ⟨h.use_pq, h.pq, h.one_le_n_clusters⟩
  unfold retrain
  rw [sample_rotate, hbooks, h.codebooks, List.length_map,
    clusterings_rotate ρ h.one_le_n_clusters]
  dsimp only
  simp only [hnil]
  by_cases htrained : v.trained = false
  · rw [if_pos htrained, if_pos htrained]
  rw [if_neg htrained, if_neg htrained]
  by_cases hitems : v.items = []
  · rw [if_pos hitems, if_pos hitems]
  · rw [if_neg hitems, if_neg hitems]
    cases clusterings v.dim v.cfg.n_clusters v.cfg.seed v.sample v.sample.length with
    | error e => rfl
    | ok cs =>
      simp only [Except.map, encodable_of_none]

/-- A call with its vectors rotated. -/
theorem call_rotate (h : v.Flat) (op : Op X) :
    (v.rotate ρ).call (op.rotate ρ) = ((v.call op).1, (v.call op).2.rotate ρ) := by
  cases op with
  | train sample => exact train_rotate ρ h sample.1
  | insert id vector metadata =>
    show (v.rotate ρ).insert id (ρ vector) metadata =
      ((v.insert id vector metadata).1, (v.insert id vector metadata).2.rotate ρ)
    have hencode : (v.rotate ρ).encode (ρ vector) = .ok none := encode_of_none h.pq _
    unfold insert
    rw [hencode, encode_of_none h.pq, ρ.length_eq, rotate_ids]
    dsimp only
    split_ifs
    · rfl
    · rfl
    · rfl
    · unfold rotate
      dsimp only
      rw [List.map_append]
      rfl
  | delete id =>
    show (v.rotate ρ).delete id = ((v.delete id).1, (v.delete id).2.rotate ρ)
    unfold delete
    rw [rotate_ids]
    dsimp only
    split_ifs
    · rw [List.filter_map]
      rfl
    · rfl
  | setNProbes n =>
    show (v.rotate ρ).setNProbes n = ((v.setNProbes n).1, (v.setNProbes n).2.rotate ρ)
    unfold setNProbes
    dsimp only
    split_ifs
    · rfl
    · rfl
    · rfl
  | setPqRefineFactor factor => rfl
  | retrain => exact retrain_rotate ρ h

/-- Every call keeps the view one of an IVF-Flat index. -/
theorem Flat.call (h : v.Flat) (op : Op X) : (v.call op).2.Flat := by
  cases op with
  | train sample =>
    show (v.train sample.1).2.Flat
    unfold train
    rw [h.codebooks]
    split_ifs
    · exact h
    · cases clusterings v.dim v.cfg.n_clusters v.cfg.seed sample.1 v.cfg.training_sample_size with
      | error e => exact h
      | ok cs => exact ⟨h.use_pq, rfl, h.one_le_n_clusters⟩
  | insert id vector metadata =>
    show (v.insert id vector metadata).2.Flat
    unfold insert
    rw [encode_of_none h.pq]
    split_ifs
    · exact h
    · exact h
    · exact h
    · exact ⟨h.use_pq, h.pq, h.one_le_n_clusters⟩
  | delete id =>
    show (v.delete id).2.Flat
    unfold delete
    split_ifs
    · exact ⟨h.use_pq, h.pq, h.one_le_n_clusters⟩
    · exact h
  | setNProbes n =>
    show (v.setNProbes n).2.Flat
    unfold setNProbes
    split_ifs
    · exact h
    · exact h
    · exact ⟨h.use_pq, h.pq, h.one_le_n_clusters⟩
  | setPqRefineFactor factor => exact ⟨h.use_pq, h.pq, h.one_le_n_clusters⟩
  | retrain =>
    show v.retrain.2.Flat
    unfold retrain
    rw [h.codebooks]
    split_ifs
    · exact h
    · exact h
    · cases clusterings v.dim v.cfg.n_clusters v.cfg.seed v.sample v.sample.length with
      | error e => exact ⟨h.use_pq, h.pq, h.one_le_n_clusters⟩
      | ok cs => exact ⟨h.use_pq, rfl, h.one_le_n_clusters⟩

/-! ## Searches -/

/-- The candidates of a search are rotated with the items. -/
theorem candidates_rotate (evaluator : Option X.FilterEvaluator) (probed : List ℕ) :
    (v.rotate ρ).candidates evaluator probed =
      (v.candidates evaluator probed).map fun p => (p.1.rotate ρ, p.2) := by
  unfold View.candidates
  show ((v.items.map (Item.rotate ρ)).zipIdx.filter _) = _
  rw [List.zipIdx_map, List.filter_map]
  congr 1
  apply List.filter_congr
  intro p _
  show (decide (nearest (v.centroids.map ρ) (ρ p.1.vector) ∈ probed) &&
    keeps X evaluator p.1.metadata) = _
  rw [nearest_rotate]

/-- A search probes the clusters of the same numbers. -/
theorem probed_rotate {exact exact' : List K → Option K} (hexact : ∀ c, exact' (ρ c) = exact c) :
    (v.rotate ρ).probed exact' = v.probed exact := by
  unfold View.probed
  dsimp only
  rw [List.zipIdx_map, best_map (Prod.map ρ id) (fun c _ => hexact c.1) fun _ _ _ _ => rfl,
    Option.map_map]
  congr 1
  funext out
  rw [Function.comp_apply, List.map_map]
  rfl

/-- The plans of the two searches score an item and the rotated item alike. -/
theorem plan_rotate (h : v.Flat) {exact exact' : List K → Option K}
    (hexact : ∀ c, exact' (ρ c) = exact c) (query : List K) (k : ℕ) (ps : List (Item X × ℕ)) :
    ∃ plan plan', v.plan query exact k = some plan ∧
      (v.rotate ρ).plan (ρ query) exact' k = some plan' ∧
      Plan.Agrees (fun p : Item X × ℕ => (p.1.rotate ρ, p.2)) ps plan plan' := by
  unfold View.plan
  rw [h.use_pq, if_neg Bool.false_ne_true, if_neg Bool.false_ne_true]
  exact ⟨_, _, rfl, rfl, .direct fun p _ => hexact p.1.vector⟩

/-- The hits of a search that reaches its passes. -/
theorem answer_rotate (h : v.Flat) {exact exact' : List K → Option K}
    (hexact : ∀ c, exact' (ρ c) = exact c) (query : List K)
    (evaluator : Option X.FilterEvaluator) (k : ℕ) :
    (v.rotate ρ).answer (ρ query) exact' evaluator k = v.answer query exact evaluator k := by
  unfold View.answer
  rw [probed_rotate ρ hexact]
  cases v.probed exact with
  | none => rfl
  | some probed =>
    obtain ⟨plan, plan', hplan, hplan', hagree⟩ :=
      plan_rotate ρ h hexact query k (v.candidates evaluator probed)
    rw [hplan, hplan']
    simp only [Option.bind_eq_bind, Option.bind_some]
    rw [candidates_rotate, Plan.run_map hagree fun _ _ _ _ => rfl]
    cases plan.run Arith.totalCmp Prod.snd k (v.candidates evaluator probed) with
    | none => rfl
    | some out =>
      simp only [Option.map_some, Option.bind_some, Option.pure_def, List.map_map]
      rfl

/-- A search with a rotated query. -/
theorem search_rotate (h : v.Flat) {score : List K → List K → Option K}
    (hsym : ∀ query c, score (ρ query) (ρ c) = score query c) (query : List K)
    (params : SearchParams X) :
    (v.rotate ρ).search score (ρ query) params = v.search score query params := by
  have hnil : v.items.map (Item.rotate ρ) = [] ↔ v.items = [] := List.map_eq_nil_iff
  have hexact : ∀ c, exactScore v.metric score (ρ query) (ρ c) =
      exactScore v.metric score query c := by
    intro c
    unfold exactScore
    rw [hsym]
  unfold View.search
  rw [ρ.length_eq]
  dsimp only
  simp only [hnil]
  split_ifs
  · rfl
  · rfl
  · rfl
  · rfl
  · cases evaluatorOf X params.filter with
    | error e => rfl
    | ok evaluator =>
      dsimp only
      rw [answer_rotate ρ h hexact]

/-- Every vector is in the cluster that it was in. -/
theorem sizes_rotate : (v.rotate ρ).sizes = v.sizes := by
  unfold View.sizes
  dsimp only
  simp only [List.countP_map, Function.comp_def, Item.rotate, nearest_rotate]

end View

/-- The scores of vectors of the dimension, and none of others. -/
def restrictScore (dim : ℕ) (score : List K → List K → Option K) (query c : List K) : Option K :=
  if query.length = dim ∧ c.length = dim then score query c else none

/-- The scores of other vectors do not matter. -/
theorem ScoresEach.restrict {metric : DistanceMetric} {dim : ℕ}
    {score : List K → List K → Option K} (h : ScoresEach X metric dim score) :
    ScoresEach X metric dim (restrictScore dim score) := by
  intro query refs out hq hrefs hne hlen
  have hsame : ∀ c ∈ refs, restrictScore dim score query c = score query c :=
    fun c hc => if_pos ⟨hq, hrefs c hc⟩
  apply (h query refs out hq hrefs hne hlen).mono
  · intro dists hall
    refine ((List.forall₂_and_left refs dists.1).2 ⟨hsame, hall⟩).imp ?_
    rintro c d ⟨heq, hd⟩
    rw [heq, hd]
  · rintro e ⟨c, hc, hnone⟩
    exact ⟨c, hc, (hsame c hc).trans hnone⟩

/-- A history of an IVF-Flat index with all vectors rotated: the calls return the same results, the
clusters have the same sizes, and a search with the rotated query finds the same hits, in the same
order and at the same distances, when the scores of rotated vectors are those of the vectors. -/
theorem rotation_equivariant {dim : ℕ} {metric : DistanceMetric} {cfg : IvfConfig}
    {s₀ : IvfIndex X} (hnew : IvfIndex.new X dim metric cfg = .ok s₀)
    (hflat : cfg.use_pq = false) {score : List K → List K → Option K}
    (hscore : ScoresEach X metric dim score)
    (hsym : ∀ query c, query.length = dim → c.length = dim →
      score (ρ query) (ρ c) = score query c) {ops : List (Op X)}
    (hseq : (ops.map Op.stamps).sum < 2^64) :
    ∃ rs t t', calls ops s₀ = .ok (rs, t) ∧ calls (ops.map (Op.rotate ρ)) s₀ = .ok (rs, t') ∧
      t'.len = t.len ∧
      t'.inverted_lists.map List.length = t.inverted_lists.map List.length ∧
      ∀ query params hits,
        t'.search (ρ query) params = .ok hits ↔ t.search query params = .ok hits := by
  have hsym' : ∀ query c, restrictScore dim score (ρ query) (ρ c) =
      restrictScore dim score query c := by
    intro query c
    unfold restrictScore
    rw [ρ.length_eq, ρ.length_eq]
    split_ifs with h
    · exact hsym query c h.1 h.2
    · rfl
  have hinv := Inv.new hnew
  have hview := view_fresh hnew
  have hvalid := (IvfIndex.new_eq_ok.1 hnew).2.1
  obtain ⟨-, -, -, rfl⟩ := IvfIndex.new_eq_ok.1 hnew
  have hseq₀ : (IvfIndex.fresh X dim metric cfg).next_seq = 0 := rfl
  obtain ⟨t, hcalls, hshows⟩ := hinv.calls_show hscore.restrict ops (by omega)
  have hseq' : ((ops.map (Op.rotate ρ)).map Op.stamps).sum < 2^64 := by
    rw [List.map_map]
    have hstamps : Op.stamps ∘ Op.rotate ρ = (Op.stamps : Op X → ℕ) := funext (stamps_rotate ρ)
    rwa [hstamps]
  obtain ⟨t', hcalls', hshows'⟩ :=
    hinv.calls_show hscore.restrict (ops.map (Op.rotate ρ)) (by omega)
  rw [hview] at hcalls hshows hcalls' hshows'
  -- The two runs of the abstract machine are related by the rotation, and stay IVF-Flat.
  have hstep : ∀ (v w : View X) (op : Op X), (w = v.rotate ρ ∧ v.Flat) →
      (w.call (op.rotate ρ)).1 = id (v.call op).1 ∧
        ((w.call (op.rotate ρ)).2 = (v.call op).2.rotate ρ ∧ (v.call op).2.Flat) := by
    rintro v w op ⟨rfl, h⟩
    rw [View.call_rotate ρ h]
    exact ⟨rfl, rfl, h.call op⟩
  have hstart : View.fresh X dim metric cfg = (View.fresh X dim metric cfg).rotate ρ ∧
      (View.fresh X dim metric cfg).Flat := ⟨rfl, hflat, rfl, hvalid.one_le_n_clusters⟩
  obtain ⟨hanswers, hlast, hflat'⟩ := Machine.run_simulation (Op.rotate ρ) id hstep hstart ops
  rw [List.map_id] at hanswers
  rw [hanswers] at hcalls'
  rw [hlast] at hshows'
  refine ⟨_, t, t', hcalls, hcalls', ?_, ?_, ?_⟩
  · rw [hshows'.len, hshows.len, List.length_map]
  · rw [hshows'.sizes, hshows.sizes, View.sizes_rotate]
  · intro query params hits
    have hsearch := View.search_rotate ρ hflat' hsym' query params
    cases hv : (Machine.run View.call (View.fresh X dim metric cfg) ops).2.search
      (restrictScore dim score) query params with
    | none =>
      rw [hv] at hsearch
      obtain ⟨e, he⟩ := hshows.search_fails query params hv
      obtain ⟨e', he'⟩ := hshows'.search_fails (ρ query) params hsearch
      simp [he, he']
    | some r =>
      rw [hv] at hsearch
      rw [hshows'.search (ρ query) params r hsearch, hshows.search query params r hv]

end Rotated

namespace Rational

/-- Euclidean distances do not change by half a turn. -/
theorem euclidean_halfTurn (query c : List ℚ) :
    distance .euclidean (Rotation.halfTurn ℚ query) (Rotation.halfTurn ℚ c) =
      distance .euclidean query c := by
  have hsquares : ((query.map fun x => -x).zip (c.map fun x => -x)).map
      (fun p => (p.1 - p.2) * (p.1 - p.2)) =
        (query.zip c).map fun p => (p.1 - p.2) * (p.1 - p.2) := by
    rw [List.zip_map, List.map_map]
    apply List.map_congr_left
    intro p _
    show (-p.1 - -p.2) * (-p.1 - -p.2) = (p.1 - p.2) * (p.1 - p.2)
    ring
  exact congrArg (fun squares => some (Rat.sqrt squares.sum)) hsquares

/-- An empty index of the plane. -/
def planeIndex : IvfIndex crates := .fresh crates 2 .euclidean flatConfig

/-- The index of the plane is what construction returns. -/
theorem planeIndex_new : IvfIndex.new crates 2 .euclidean flatConfig = .ok planeIndex := by
  have hvalid : flatConfig.Valid := (IvfConfig.validate_eq_ok _).1 rfl
  exact IvfIndex.new_eq_ok.2 ⟨Nat.two_pos, hvalid, rfl, rfl⟩

/-- A history with a training, inserts, a delete and a retraining. -/
def planeCalls : List (Op crates) :=
  [.train ⟨[[0, 0], [10, 0], [0, 7]], by decide⟩, .insert 3 [1, 0] none, .insert 4 [9, 1] (some 5),
    .insert 5 [0, 6] none, .delete 3, .retrain]

/-- The history in the plane after half a turn. -/
theorem planeCalls_rotation_equivariant :
    ∃ rs t t', calls planeCalls planeIndex = .ok (rs, t) ∧
      calls (planeCalls.map (Op.rotate (Rotation.halfTurn ℚ))) planeIndex = .ok (rs, t') ∧
      t'.len = t.len ∧
      t'.inverted_lists.map List.length = t.inverted_lists.map List.length ∧
      ∀ query params hits, t'.search (Rotation.halfTurn ℚ query) params = .ok hits ↔
        t.search query params = .ok hits :=
  rotation_equivariant (Rotation.halfTurn ℚ) planeIndex_new rfl (scoresEach .euclidean 2)
    (fun query c _ _ => euclidean_halfTurn query c) (by decide)

end Rational

end IqdbIvf
