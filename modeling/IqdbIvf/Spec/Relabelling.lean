import IqdbIvf.Spec.Abstraction

/-!
# Ids and metadata are opaque

The index compares ids with each other and hands metadata to a filter, and does nothing else with
either. Renaming the ids injectively, and changing the metadata in any way that the filters of the
searches do not see, gives a history with the same results, whose searches find the renamed hits at
the same distances (`relabelling_equivariant`).
-/

set_option linter.unusedSectionVars false

namespace IqdbIvf

open Outcome Selection Rational

variable {F32 : Type} [Arith F32] {X : Crates F32} {s t : IvfIndex X} {v : View X}

/-! ## Labels -/

/-- New labels for items: another id, and other metadata. -/
structure Relabelling (X : Crates F32) where
  id : X.VectorId → X.VectorId
  metadata : Option X.Metadata → Option X.Metadata
  /-- No two ids are given one label. -/
  id_injective : Function.Injective id

variable {ρ : Relabelling X}

/-- The item under new labels. -/
def Item.relabel (ρ : Relabelling X) (item : Item X) : Item X :=
  ⟨ρ.id item.id, item.vector, ρ.metadata item.metadata⟩

/-- The hit under new labels. -/
def Hit.relabel (ρ : Relabelling X) (hit : Hit X) : Hit X :=
  ⟨ρ.id hit.id, hit.distance, ρ.metadata hit.metadata⟩

/-- The call under new labels. -/
def Op.relabel (ρ : Relabelling X) : Op X → Op X
  | .insert id vector metadata => .insert (ρ.id id) vector (ρ.metadata metadata)
  | .delete id => .delete (ρ.id id)
  | op => op

/-- The filter of a search does not see the change of the metadata. -/
def Relabelling.Unseen (ρ : Relabelling X) (params : SearchParams X) : Prop :=
  ∀ evaluator, evaluatorOf X params.filter = .ok evaluator → ∀ metadata,
    keeps X evaluator (ρ.metadata metadata) = keeps X evaluator metadata

namespace View

/-- The view under new labels. -/
abbrev relabel (v : View X) (ρ : Relabelling X) : View X :=
  { v with items := v.items.map (Item.relabel ρ) }

/-- Relabelling keeps the vectors. -/
@[simp] theorem relabel_vectors :
    (v.items.map (Item.relabel ρ)).map (·.vector) = v.items.map (·.vector) := by
  rw [List.map_map]
  rfl

/-- Relabelling keeps the working set of a retraining. -/
@[simp] theorem relabel_sample : (v.relabel ρ).sample = v.sample := by
  unfold sample
  dsimp only
  rw [relabel_vectors]

/-! ## Calls -/

/-- An id is taken exactly when its label is. -/
@[simp] theorem mem_relabel_ids (id : X.VectorId) :
    ρ.id id ∈ (v.items.map (Item.relabel ρ)).map (·.id) ↔ id ∈ v.items.map (·.id) := by
  have hids : (v.items.map (Item.relabel ρ)).map (·.id) = (v.items.map (·.id)).map ρ.id := by
    rw [List.map_map, List.map_map]
    rfl
  rw [hids, List.mem_map_of_injective ρ.id_injective]

/-- Removing a label removes the id. -/
theorem filter_relabel (items : List (Item X)) (id : X.VectorId) :
    (items.map (Item.relabel ρ)).filter (fun item => item.id ≠ ρ.id id) =
      (items.filter fun item => item.id ≠ id).map (Item.relabel ρ) := by
  rw [List.filter_map]
  congr 1
  apply List.filter_congr
  intro item _
  simp [Item.relabel, ρ.id_injective.eq_iff]

/-- The items that a retraining stores again, under new labels. -/
theorem encodable_relabel {w : View X} (hpq : w.pq = v.pq) (items : List (Item X)) :
    w.encodable (items.map (Item.relabel ρ)) =
      ((v.encodable items).1, (v.encodable items).2.map (Item.relabel ρ)) := by
  induction items with
  | nil => rfl
  | cons item rest ih =>
    have hencode : w.encode (item.relabel ρ).vector = v.encode item.vector := by
      unfold encode
      rw [hpq]
      rfl
    rw [List.map_cons]
    unfold encodable
    rw [hencode]
    cases v.encode item.vector with
    | error e => rfl
    | ok code => simp only [ih, List.map_cons]

/-- A call under new labels. -/
theorem call_relabel (ρ : Relabelling X) (v : View X) (op : Op X) :
    (v.relabel ρ).call (op.relabel ρ) = ((v.call op).1, (v.call op).2.relabel ρ) := by
  cases op with
  | train sample =>
    show (v.relabel ρ).train sample.1 = ((v.train sample.1).1, (v.train sample.1).2.relabel ρ)
    have hbooks : (v.relabel ρ).codebooks sample.1 = v.codebooks sample.1 := rfl
    unfold train
    rw [hbooks]
    dsimp only
    by_cases htrained : v.trained = true
    · rw [if_pos htrained, if_pos htrained]
    · rw [if_neg htrained, if_neg htrained]
      cases clusterings v.dim v.cfg.n_clusters v.cfg.seed sample.1
        v.cfg.training_sample_size with
      | error e => rfl
      | ok cs =>
        cases hpq : v.codebooks sample.1 with
        | error e => rfl
        | ok pq => rfl
  | insert id vector metadata =>
    show (v.relabel ρ).insert (ρ.id id) vector (ρ.metadata metadata) =
      ((v.insert id vector metadata).1, (v.insert id vector metadata).2.relabel ρ)
    have hencode : (v.relabel ρ).encode vector = v.encode vector := rfl
    unfold insert
    rw [hencode]
    dsimp only
    simp only [mem_relabel_ids]
    split_ifs
    · rfl
    · rfl
    · rfl
    · cases v.encode vector with
      | error e => rfl
      | ok code =>
        unfold relabel
        dsimp only
        rw [List.map_append]
        rfl
  | delete id =>
    show (v.relabel ρ).delete (ρ.id id) = ((v.delete id).1, (v.delete id).2.relabel ρ)
    unfold delete
    dsimp only
    simp only [mem_relabel_ids]
    split_ifs
    · rw [filter_relabel]
    · rfl
  | setNProbes n =>
    show (v.relabel ρ).setNProbes n = ((v.setNProbes n).1, (v.setNProbes n).2.relabel ρ)
    unfold setNProbes
    dsimp only
    split_ifs
    · rfl
    · rfl
    · rfl
  | setPqRefineFactor factor => rfl
  | retrain =>
    show (v.relabel ρ).retrain = (v.retrain.1, v.retrain.2.relabel ρ)
    have hnil : v.items.map (Item.relabel ρ) = [] ↔ v.items = [] := List.map_eq_nil_iff
    have hbooks : ∀ sample, (v.relabel ρ).codebooks sample = v.codebooks sample := fun _ => rfl
    unfold retrain
    rw [relabel_sample, hbooks]
    dsimp only
    simp only [hnil]
    by_cases htrained : v.trained = false
    · rw [if_pos htrained, if_pos htrained]
    rw [if_neg htrained, if_neg htrained]
    by_cases hitems : v.items = []
    · rw [if_pos hitems, if_pos hitems]
    · rw [if_neg hitems, if_neg hitems]
      cases clusterings v.dim v.cfg.n_clusters v.cfg.seed v.sample v.sample.length with
      | error e => rfl
      | ok cs =>
        cases v.codebooks v.sample with
        | error e => rfl
        | ok pq =>
          have hstored := encodable_relabel (ρ := ρ) (v := { v with centroids := cs, pq := pq })
            (w := { v.relabel ρ with centroids := cs, pq := pq }) rfl v.items
          dsimp only at hstored ⊢
          rw [hstored]

/-! ## Searches -/

/-- A plan scores an item as it scores the item under new labels. -/
theorem plan_agrees {query : List F32} {exact : List F32 → Option F32} {k : ℕ}
    {plan : Plan (Item X × ℕ) F32} (h : v.plan query exact k = some plan)
    (ps : List (Item X × ℕ)) :
    Plan.Agrees (fun p => (p.1.relabel ρ, p.2)) ps plan plan := by
  unfold View.plan at h
  split_ifs at h with huse hzero
  · simp only [Option.bind_eq_bind, Option.bind_eq_some_iff] at h
    obtain ⟨pq, -, tables, -, h⟩ := h
    obtain rfl := Option.some.inj h
    exact .direct fun _ _ => rfl
  · simp only [Option.bind_eq_bind, Option.bind_eq_some_iff] at h
    obtain ⟨pq, -, tables, -, h⟩ := h
    obtain rfl := Option.some.inj h
    exact .staged (fun _ _ => rfl) fun _ _ => rfl
  · obtain rfl := Option.some.inj h
    exact .direct fun _ _ => rfl

/-- The candidates of a search whose filter does not see the new metadata. -/
theorem candidates_relabel {evaluator : Option X.FilterEvaluator}
    (hblind : ∀ metadata, keeps X evaluator (ρ.metadata metadata) = keeps X evaluator metadata)
    (probed : List ℕ) : (v.relabel ρ).candidates evaluator probed =
      (v.candidates evaluator probed).map fun p => (p.1.relabel ρ, p.2) := by
  unfold View.candidates
  show ((v.items.map (Item.relabel ρ)).zipIdx.filter _) = _
  rw [List.zipIdx_map, List.filter_map]
  congr 1
  apply List.filter_congr
  intro p _
  show (decide (nearest v.centroids p.1.vector ∈ probed) &&
    keeps X evaluator (ρ.metadata p.1.metadata)) = _
  rw [hblind]

/-- The answer of a search whose filter does not see the new metadata. -/
theorem answer_relabel {query : List F32} {exact : List F32 → Option F32}
    {evaluator : Option X.FilterEvaluator} {k : ℕ}
    (hblind : ∀ metadata, keeps X evaluator (ρ.metadata metadata) = keeps X evaluator metadata) :
    (v.relabel ρ).answer query exact evaluator k =
      (v.answer query exact evaluator k).map (List.map (Hit.relabel ρ)) := by
  unfold View.answer
  have hprobed : (v.relabel ρ).probed exact = v.probed exact := rfl
  have hplan : (v.relabel ρ).plan query exact k = v.plan query exact k := rfl
  rw [hprobed, hplan]
  cases v.probed exact with
  | none => rfl
  | some probed =>
    cases hp : v.plan query exact k with
    | none => rfl
    | some plan =>
      simp only [Option.bind_eq_bind, Option.bind_some]
      rw [candidates_relabel hblind, Plan.run_map (plan_agrees hp _) fun _ _ _ _ => rfl]
      cases plan.run Arith.totalCmp Prod.snd k (v.candidates evaluator probed) with
      | none => rfl
      | some out =>
        simp only [Option.map_some, Option.bind_some, Option.pure_def, List.map_map]
        rfl

/-- A search whose filter does not see the new metadata. -/
theorem search_relabel {score : List F32 → List F32 → Option F32} {query : List F32}
    {params : SearchParams X} (hblind : ρ.Unseen params) :
    (v.relabel ρ).search score query params =
      (v.search score query params).map (Except.map (List.map (Hit.relabel ρ))) := by
  have hnil : v.items.map (Item.relabel ρ) = [] ↔ v.items = [] := List.map_eq_nil_iff
  unfold View.search
  dsimp only
  simp only [hnil]
  split_ifs
  · rfl
  · rfl
  · rfl
  · rfl
  · cases hfilter : evaluatorOf X params.filter with
    | error e => rfl
    | ok evaluator =>
      dsimp only
      rw [answer_relabel (hblind evaluator hfilter), Option.map_map, Option.map_map]
      rfl

/-- The sizes of the clusters do not depend on the labels. -/
theorem sizes_relabel : (v.relabel ρ).sizes = v.sizes := by
  unfold View.sizes
  dsimp only
  simp only [List.countP_map]
  rfl

end View

/-- Relabelled calls take the same stamps. -/
theorem stamps_relabel (op : Op X) : (op.relabel ρ).stamps = op.stamps := by
  cases op with
  | _ => rfl

/-- A renamed history is the renaming of the history: the calls return the same results, the
clusters have the same sizes, and a search whose filter does not see the new metadata finds the
renamed hits, in the same order and at the same distances. -/
theorem relabelling_equivariant {dim : ℕ} {metric : DistanceMetric} {cfg : IvfConfig}
    {s₀ : IvfIndex X} (hnew : IvfIndex.new X dim metric cfg = .ok s₀)
    {score : List F32 → List F32 → Option F32} (hscore : ScoresEach X metric dim score)
    {ops : List (Op X)} (hseq : (ops.map Op.stamps).sum < 2^64) (ρ : Relabelling X) :
    ∃ rs t t', calls ops s₀ = .ok (rs, t) ∧ calls (ops.map (Op.relabel ρ)) s₀ = .ok (rs, t') ∧
      t'.len = t.len ∧
      t'.inverted_lists.map List.length = t.inverted_lists.map List.length ∧
      ∀ query params, ρ.Unseen params → ∀ hits',
        t'.search query params = .ok hits' ↔
          ∃ hits, t.search query params = .ok hits ∧ hits' = hits.map (Hit.relabel ρ) := by
  have hinv := Inv.new hnew
  have hview := view_fresh hnew
  obtain ⟨-, -, -, rfl⟩ := IvfIndex.new_eq_ok.1 hnew
  have hseq₀ : (IvfIndex.fresh X dim metric cfg).next_seq = 0 := rfl
  obtain ⟨t, hcalls, hshows⟩ := hinv.calls_show hscore ops (by omega)
  have hseq' : ((ops.map (Op.relabel ρ)).map Op.stamps).sum < 2^64 := by
    rw [List.map_map]
    have hstamps : Op.stamps ∘ Op.relabel ρ = (Op.stamps : Op X → ℕ) := funext stamps_relabel
    rwa [hstamps]
  obtain ⟨t', hcalls', hshows'⟩ := hinv.calls_show hscore (ops.map (Op.relabel ρ)) (by omega)
  rw [hview] at hcalls hshows hcalls' hshows'
  -- The two runs of the abstract machine are related by the relabelling.
  have hstep : ∀ (v w : View X) (op : Op X), w = v.relabel ρ →
      (w.call (op.relabel ρ)).1 = id (v.call op).1 ∧
      (w.call (op.relabel ρ)).2 = (v.call op).2.relabel ρ := by
    rintro v w op rfl
    rw [View.call_relabel]
    exact ⟨rfl, rfl⟩
  have hstart : View.fresh X dim metric cfg = (View.fresh X dim metric cfg).relabel ρ := rfl
  obtain ⟨hanswers, hlast⟩ := Machine.run_simulation (Op.relabel ρ) id hstep hstart ops
  rw [List.map_id] at hanswers
  rw [hanswers] at hcalls'
  rw [hlast] at hshows'
  refine ⟨_, t, t', hcalls, hcalls', ?_, ?_, ?_⟩
  · rw [hshows'.len, hshows.len, List.length_map]
  · rw [hshows'.sizes, hshows.sizes, View.sizes_relabel]
  · intro query params hblind hits'
    have hsearch : ((Machine.run View.call (View.fresh X dim metric cfg) ops).2.relabel ρ).search
        score query params = _ := View.search_relabel hblind
    cases hv : (Machine.run View.call (View.fresh X dim metric cfg) ops).2.search score query
      params with
    | none =>
      rw [hv] at hsearch
      obtain ⟨e, he⟩ := hshows.search_fails query params hv
      obtain ⟨e', he'⟩ := hshows'.search_fails query params hsearch
      simp [he, he']
    | some r =>
      rw [hv] at hsearch
      rw [hshows'.search query params _ hsearch, hshows.search query params r hv]
      cases r with
      | error e => simp [Except.map, Except.mapError]
      | ok hits => simp [Except.map, Except.mapError, eq_comm]

/-- Other labels: every id and every metadata is another number. -/
def shifted : Relabelling crates where
  id := fun id => id + 10
  metadata := fun metadata => metadata.map fun n => n + 100
  id_injective := fun _ _ h => Nat.add_right_cancel h

/-- The history with a failing retraining, under other labels. -/
theorem losingCalls_relabelling_equivariant :
    ∃ rs t t', calls losingCalls pqIndex = .ok (rs, t) ∧
      calls (losingCalls.map (Op.relabel shifted)) pqIndex = .ok (rs, t') ∧
      t'.len = t.len ∧
      t'.inverted_lists.map List.length = t.inverted_lists.map List.length ∧
      ∀ query params, shifted.Unseen params → ∀ hits',
        t'.search query params = .ok hits' ↔
          ∃ hits, t.search query params = .ok hits ∧ hits' = hits.map (Hit.relabel shifted) :=
  relabelling_equivariant pqIndex_new (scoresEach .manhattan 1) (by decide) shifted

end IqdbIvf
