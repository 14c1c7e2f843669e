import IqdbIvf.Spec.Retraining

/-!
# What training and retraining accept

With a product quantizer that behaves as documented, `train` and `retrain` fail for want of vectors
only: `train` counts its sample, and `retrain` what the cap leaves of the live vectors. So a cap
below the number of clusters or of codewords makes `retrain` refuse what `train` accepts, and
nothing else does (`retrain_accepts_iff`). Both raise the errors of the same stages, each on its own
list (`IvfIndex.Refuses`).
-/

set_option linter.unusedSectionVars false

namespace IqdbIvf

open Outcome Buckets Rational

variable {F32 : Type} [Arith F32] {X : Crates F32} {s t : IvfIndex X}

/-! ## The quantizer -/

/-- The documented behaviour of `ProductQuantizer` on vectors of one dimension: training takes at
least as many of them as there are codewords, and a trained quantizer encodes them all. -/
structure QuantizerTrains (X : Crates F32) (dim : ℕ) (pq : X.ProductQuantizer) : Prop where
  trains : ∀ sample, (∀ v ∈ sample, v.length = dim) →
    ((∃ q, X.trainQuantizer pq sample = .ok q) ↔ pqKCentroids ≤ sample.length)
  quantizes : ∀ sample q, (∀ v ∈ sample, v.length = dim) → X.trainQuantizer pq sample = .ok q →
    ∀ v, v.length = dim → ∃ code, X.quantize q v = .ok code

/-- Every quantizer whose number of subvectors divides the dimension behaves so. -/
def PqTrains (X : Crates F32) (dim : ℕ) (seed : UInt64) : Prop :=
  ∀ m, 1 ≤ m → dim % m = 0 → QuantizerTrains X dim (X.withConfig m pqKCentroids seed)

/-- The quantizer of the exact model behaves so. -/
theorem Rational.pqTrains (dim : ℕ) (seed : UInt64) : PqTrains crates dim seed := by
  intro m _ _
  have htrain : ∀ pq sample, crates.trainQuantizer pq sample =
      if sample.length < 256 then
        .error (.invalidConfig "ProductQuantizer::train requires at least 256 vectors")
      else .ok (sample.take 256) := fun _ _ => rfl
  constructor
  case trains =>
    intro sample _
    rw [htrain]
    unfold pqKCentroids
    split_ifs with hlt
    · simp [hlt]
    · simp [Nat.le_of_not_lt hlt]
  case quantizes =>
    intro sample q hdims hq v hv
    rw [htrain] at hq
    split_ifs at hq with hlt
    obtain rfl := Except.ok.inj hq
    -- The codebook starts with a vector of the sample.
    obtain ⟨word, words, hsample⟩ : ∃ word words, sample = word :: words :=
      List.exists_cons_of_length_pos (by omega)
    have hword : v.length = word.length := by
      rw [hv, hdims word (by rw [hsample]; exact List.mem_cons_self)]
    rw [hsample, List.take_succ_cons]
    exact ⟨_, if_pos hword⟩

/-- The quantizer that an index in IVF-PQ mode configures. -/
theorem Inv.quantizerTrains (h : Inv s) (huse : s.cfg.use_pq = true)
    (hpq : PqTrains X s.dim s.cfg.seed) :
    ∃ pq, (∀ sample, trainPq X s.cfg sample = X.trainQuantizer pq sample) ∧
      QuantizerTrains X s.dim pq := by
  obtain ⟨m, hm, hone⟩ := h.valid.subvectors huse
  -- Construction has checked that the subvectors divide the dimension.
  have hdiv : s.dim % m = 0 := by
    have hshape := h.shape
    unfold checkPqShape at hshape
    rw [huse, if_pos rfl, hm] at hshape
    split_ifs at hshape with hmetric hdiv
    rw [not_or, not_not] at hdiv
    exact hdiv.2
  refine ⟨_, fun sample => ?_, hpq m hone hdiv⟩
  unfold trainPq
  rw [hm]

/-! ## What is refused -/

/-- The errors of the training stages on a sample of the dimension: k-means wants a vector for each
cluster, and in IVF-PQ mode the quantizer has an error of its own for what k-means takes. -/
def IvfIndex.Refuses (s : IvfIndex X) (sample : List (List F32)) (e : IqdbError) : Prop :=
  (sample.length < s.cfg.n_clusters ∧
    e = .invalidConfig "IvfIndex::train requires sample.len() >= n_clusters") ∨
  (s.cfg.n_clusters ≤ sample.length ∧ s.cfg.use_pq = true ∧ trainPq X s.cfg sample = .error e)

section Refuses

variable {sample : List (List F32)} {e e' : IqdbError}

/-- The error of the pre-checks. -/
theorem refuses_of_precheck_error (hne : sample ≠ []) (hdims : ∀ v ∈ sample, v.length = s.dim)
    (hpre : trainPrechecks s.dim s.cfg.n_clusters sample = .error e') :
    s.Refuses sample e ↔ e' = e := by
  have hfind : sample.find? (fun v => v.length != s.dim) = none := by
    rw [List.find?_eq_none]
    intro v hv
    simp [hdims v hv]
  unfold trainPrechecks at hpre
  simp only [List.isEmpty_iff, hne, if_false, hfind] at hpre
  split_ifs at hpre with hlt
  obtain rfl := Except.error.inj hpre
  constructor
  · rintro (⟨-, rfl⟩ | ⟨hle, -⟩)
    · rfl
    · omega
  · rintro rfl
    exact .inl ⟨hlt, rfl⟩

/-- The error of the quantizer. -/
theorem refuses_of_pq_error (hle : s.cfg.n_clusters ≤ sample.length) (huse : s.cfg.use_pq = true)
    (hpq : trainPq X s.cfg sample = .error e') : s.Refuses sample e ↔ e' = e := by
  constructor
  · rintro (⟨hlt, -⟩ | ⟨-, -, hpq'⟩)
    · omega
    · rw [hpq] at hpq'
      exact Except.error.inj hpq'
  · rintro rfl
    exact .inr ⟨hle, huse, hpq⟩

/-- No error when both stages succeed. -/
theorem not_refuses_of_trainsPq (hle : s.cfg.n_clusters ≤ sample.length)
    {old new : Option X.ProductQuantizer} (hpq : TrainsPq s.cfg sample old new) :
    ¬ s.Refuses sample e := by
  rintro (⟨hlt, -⟩ | ⟨-, huse, hfails⟩)
  · omega
  · obtain ⟨q, hq, -⟩ := hpq.exists_trained huse
    rw [hfails] at hq
    cases hq

end Refuses

/-- The samples that k-means trains on have a vector for each cluster. -/
theorem n_clusters_le_of_trainKmeans {dim n_clusters cap : ℕ} {seed : UInt64}
    {sample cs : List (List F32)} (h : trainKmeans dim n_clusters seed sample cap = .ok cs) :
    n_clusters ≤ sample.length := by
  cases hpre : trainPrechecks dim n_clusters sample with
  | error e =>
    rw [trainKmeans_of_precheck_error hpre] at h
    cases h
  | ok u => exact (trainPrechecks_eq_ok.1 hpre).2.2

/-- A call that ended with an error raises this error. -/
theorem raises_iff {e e' : IqdbError} :
    (∃ t', (.ok (.error e', t) : Checked (Except IqdbError Unit × IvfIndex X)) =
      .ok (.error e, t')) ↔ e' = e := by
  simp

/-- Which errors `train` raises on a new index. -/
theorem Inv.train_error_iff (h : Inv s) (htrained : s.trained = false) {sample : Slice (List F32)}
    (hne : sample.1 ≠ []) (hdims : ∀ v ∈ sample.1, v.length = s.dim) {e : IqdbError} :
    (∃ t, call (.train sample) s = .ok (.error e, t)) ↔ s.Refuses sample.1 e := by
  obtain ⟨r, t, hcall, htransition⟩ := call_transition h (.train sample)
  rw [hcall]
  cases htransition with
  | trainTwice _ htrue =>
    rw [htrained] at htrue
    cases htrue
  | trainKmeansFails _ e' _ hpre => rw [raises_iff, refuses_of_precheck_error hne hdims hpre]
  | trainPqFails _ cs e' _ hcs huse hfails =>
    rw [raises_iff, refuses_of_pq_error (n_clusters_le_of_trainKmeans hcs) huse hfails]
  | trained _ cs pq _ hcs htrains =>
    have hnot := not_refuses_of_trainsPq (e := e) (n_clusters_le_of_trainKmeans hcs) htrains
    simp [hnot]

/-- A quantizer that was trained as documented encodes every live vector. -/
theorem Inv.encodes_drained (h : Inv s) (htrained : s.trained = true)
    (hpq : PqTrains X s.dim s.cfg.seed) {cs : List (List F32)} {new : Option X.ProductQuantizer}
    (htrains : TrainsPq s.cfg s.sample s.pq new) {x : InvertedListEntry X} (hx : x ∈ s.live) :
    (s.drained cs new).Encodes x.vector := by
  rcases htrains with ⟨huse, q, hq, rfl⟩ | ⟨huse, rfl⟩
  · obtain ⟨pq, htrain, hworks⟩ := h.quantizerTrains huse hpq
    rw [htrain] at hq
    exact encodes_drained_some.2
      (hworks.quantizes s.sample q h.sample_dims hq x.vector (h.live_dim hx))
  · rw [(h.pq_eq_none_iff htrained).2 huse]
    exact encodes_drained_none

/-- Which errors `retrain` raises on a non-empty index, when the quantizer behaves as documented:
those of the stages on the capped sample. -/
theorem Inv.retrain_error_iff (h : Inv s) (htrained : s.trained = true) (hlive : s.live_count ≠ 0)
    (hpq : PqTrains X s.dim s.cfg.seed) {e : IqdbError} :
    (∃ t, call (X := X) .retrain s = .ok (.error e, t)) ↔ s.Refuses s.sample e := by
  have hne := h.sample_ne_nil hlive
  obtain ⟨r, t, hcall, htransition⟩ := call_transition h (.retrain : Op X)
  rw [hcall]
  cases htransition with
  | retrainUntrained hfalse =>
    rw [htrained] at hfalse
    cases hfalse
  | retrainEmpty _ hzero => exact absurd hzero hlive
  | retrainKmeansFails e' _ _ hpre =>
    rw [raises_iff, refuses_of_precheck_error hne h.sample_dims hpre]
  | retrainPqFails cs e' _ _ hcs huse hfails =>
    rw [raises_iff, refuses_of_pq_error (n_clusters_le_of_trainKmeans hcs) huse hfails]
  | retrainEncodeFails cs pq done rest entry e' _ _ hcs htrains hsplit _ hcode =>
    -- The new quantizer encodes every live vector.
    have hmem : entry ∈ s.live := by
      rw [hsplit]
      exact List.mem_append_right _ List.mem_cons_self
    obtain ⟨code, hok⟩ := h.encodes_drained htrained hpq htrains hmem
    rw [hcode] at hok
    cases hok
  | retrained cs pq _ _ hcs htrains =>
    have hnot := not_refuses_of_trainsPq (e := e) (n_clusters_le_of_trainKmeans hcs) htrains
    simp [hnot]

/-! ## What is accepted -/

/-- A call returns `Ok` when it raises no error. -/
theorem Inv.returns_ok_iff (h : Inv s) (op : Op X) :
    (∃ t, call op s = .ok (.ok (), t)) ↔ ∀ e, ¬ ∃ t, call op s = .ok (.error e, t) := by
  obtain ⟨r, t, hcall, -⟩ := call_transition h op
  rw [hcall]
  cases r with
  | ok u => simp
  | error e => simp

/-- What the training stages accept when the quantizer behaves as documented: a vector for each
cluster, and in IVF-PQ mode one for each codeword. -/
theorem Inv.accepts_iff (h : Inv s) (hpq : PqTrains X s.dim s.cfg.seed) {sample : List (List F32)}
    (hdims : ∀ v ∈ sample, v.length = s.dim) :
    (∀ e, ¬ s.Refuses sample e) ↔ s.cfg.n_clusters ≤ sample.length ∧
      (s.cfg.use_pq = true → pqKCentroids ≤ sample.length) := by
  constructor
  · intro hnone
    have hle : s.cfg.n_clusters ≤ sample.length := by
      by_contra hlt
      exact hnone _ (.inl ⟨Nat.lt_of_not_le hlt, rfl⟩)
    refine ⟨hle, fun huse => ?_⟩
    obtain ⟨pq, htrain, hworks⟩ := h.quantizerTrains huse hpq
    rw [← hworks.trains sample hdims]
    cases hrun : X.trainQuantizer pq sample with
    | ok q => exact ⟨q, rfl⟩
    | error e => exact absurd (.inr ⟨hle, huse, (htrain sample).trans hrun⟩) (hnone e)
  · rintro ⟨hle, hcodes⟩ e (⟨hlt, -⟩ | ⟨-, huse, hfails⟩)
    · omega
    · obtain ⟨pq, htrain, hworks⟩ := h.quantizerTrains huse hpq
      obtain ⟨q, hq⟩ := (hworks.trains sample hdims).2 (hcodes huse)
      rw [htrain, hq] at hfails
      cases hfails

/-- What `train` accepts on a new index. -/
theorem Inv.train_returns_ok_iff (h : Inv s) (htrained : s.trained = false)
    (hpq : PqTrains X s.dim s.cfg.seed) {sample : Slice (List F32)} (hne : sample.1 ≠ [])
    (hdims : ∀ v ∈ sample.1, v.length = s.dim) :
    (∃ t, call (.train sample) s = .ok (.ok (), t)) ↔
      s.cfg.n_clusters ≤ sample.1.length ∧
        (s.cfg.use_pq = true → pqKCentroids ≤ sample.1.length) := by
  rw [h.returns_ok_iff, ← h.accepts_iff hpq hdims]
  exact forall_congr' fun e => not_congr (h.train_error_iff htrained hne hdims)

/-- What `retrain` accepts on a non-empty index. -/
theorem Inv.retrain_accepts (h : Inv s) (htrained : s.trained = true) (hlive : s.live_count ≠ 0)
    (hpq : PqTrains X s.dim s.cfg.seed) :
    (∃ t, call (X := X) .retrain s = .ok (.ok (), t)) ↔
      s.cfg.n_clusters ≤ min s.cfg.training_sample_size s.live_count ∧
        (s.cfg.use_pq = true → pqKCentroids ≤ min s.cfg.training_sample_size s.live_count) := by
  rw [h.returns_ok_iff, ← h.length_sample, ← h.accepts_iff hpq h.sample_dims]
  exact forall_congr' fun e => not_congr (h.retrain_error_iff htrained hlive hpq)

/-- The live vectors, in insertion order, as the argument of a call. -/
def Inv.liveVectors (h : Inv s) : Slice (List F32) :=
  ⟨s.live.map (·.vector), by
    rw [List.length_map, h.length_live, h.live_count]
    exact h.length_lt⟩

/-- On a non-empty index `retrain` accepts the live vectors whenever `train` on a new index with the
same configuration would, if and only if `train` would not, or the cap on the sample reaches the
number of clusters and in IVF-PQ mode that of the codewords. The errors are those of the stages, of
`retrain` on the capped sample and of `train` on all live vectors. -/
theorem retrain_accepts_iff (hs : Reachable s) (htrained : s.trained = true)
    (hlive : 1 ≤ s.live_count) (hpq : PqTrains X s.dim s.cfg.seed) :
    ((∀ sample s₀ t, sample.1 = s.live.map (·.vector) →
      IvfIndex.new X s.dim s.metric s.cfg = .ok s₀ → call (.train sample) s₀ = .ok (.ok (), t) →
        ∃ t', call (X := X) .retrain s = .ok (.ok (), t')) ↔
    s.live_count < s.cfg.n_clusters ∨ (s.cfg.use_pq = true ∧ s.live_count < pqKCentroids) ∨
      (s.cfg.n_clusters ≤ s.cfg.training_sample_size ∧
        (s.cfg.use_pq = true → pqKCentroids ≤ s.cfg.training_sample_size))) ∧
    (∀ e, (∃ t, call (X := X) .retrain s = .ok (.error e, t)) ↔ s.Refuses s.sample e) ∧
    ∀ sample s₀ e, sample.1 = s.live.map (·.vector) →
      IvfIndex.new X s.dim s.metric s.cfg = .ok s₀ →
        ((∃ t, call (.train sample) s₀ = .ok (.error e, t)) ↔ s.Refuses sample.1 e) := by
  have h := hs.inv
  have hpos : s.live_count ≠ 0 := Nat.ne_of_gt hlive
  have hnew : IvfIndex.new X s.dim s.metric s.cfg = .ok (.fresh X s.dim s.metric s.cfg) :=
    IvfIndex.new_eq_ok.2 ⟨h.dim_pos, h.valid, h.shape, rfl⟩
  have hfresh := Inv.new hnew
  have hlen := h.length_live_vectors
  have hne : s.live.map (·.vector) ≠ [] := by
    rw [← List.length_pos_iff, hlen]
    exact hlive
  have hdims := h.live_vectors_dim
  have htrain : ∀ sample : Slice (List F32), sample.1 = s.live.map (·.vector) →
      ((∃ t, call (.train sample) (.fresh X s.dim s.metric s.cfg) = .ok (.ok (), t)) ↔
        s.cfg.n_clusters ≤ s.live_count ∧ (s.cfg.use_pq = true → pqKCentroids ≤ s.live_count)) := by
    intro sample hsample
    rw [← hsample] at hne hdims
    rw [hfresh.train_returns_ok_iff rfl hpq hne hdims, hsample, hlen]
    exact Iff.rfl
  have hretrain := h.retrain_accepts htrained hpos hpq
  simp only [le_min_iff] at hretrain
  refine ⟨⟨?_, ?_⟩, fun e => h.retrain_error_iff htrained hpos hpq, ?_⟩
  · intro haccepts
    by_contra hcond
    simp only [not_or, not_and, not_lt] at hcond
    obtain ⟨hclusters, hcodes, hcap⟩ := hcond
    -- Then training takes the live vectors, so retraining has to.
    obtain ⟨t, ht⟩ := (htrain h.liveVectors rfl).2 ⟨hclusters, hcodes⟩
    obtain ⟨⟨hle, -⟩, hle'⟩ := hretrain.1 (haccepts h.liveVectors _ t rfl hnew ht)
    exact hcap hle fun huse => (hle' huse).1
  · intro hcond sample s₀ t hsample hs₀ hcall
    obtain ⟨-, -, -, rfl⟩ := IvfIndex.new_eq_ok.1 hs₀
    obtain ⟨hclusters, hcodes⟩ := (htrain sample hsample).1 ⟨t, hcall⟩
    rw [hretrain]
    rcases hcond with hlt | ⟨huse, hlt⟩ | ⟨hcap, hcap'⟩
    · omega
    · have hle := hcodes huse
      omega
    · exact ⟨⟨hcap, hclusters⟩, fun huse => ⟨hcap' huse, hcodes huse⟩⟩
  · intro sample s₀ e hsample hs₀
    obtain ⟨-, -, -, rfl⟩ := IvfIndex.new_eq_ok.1 hs₀
    rw [← hsample] at hne hdims
    exact hfresh.train_error_iff rfl hne hdims

/-- Two clusters in IVF-PQ mode, and a cap of one vector on the training sample. -/
def narrowConfig : IvfConfig := { pqConfig with n_clusters := 2 }

/-- An empty index with this configuration. -/
def narrowIndex : IvfIndex crates := .fresh crates 1 .manhattan narrowConfig

/-- The index is what construction returns. -/
theorem narrowIndex_new : IvfIndex.new crates 1 .manhattan narrowConfig = .ok narrowIndex := by
  have hvalid : narrowConfig.Valid := (IvfConfig.validate_eq_ok _).1 rfl
  exact IvfIndex.new_eq_ok.2 ⟨Nat.one_pos, hvalid, rfl, rfl⟩

/-- The index, trained and with two items. -/
def narrowState : IvfIndex crates := narrowIndex.after pqCalls

/-- The index with two items and a cap of one vector is reachable. -/
theorem narrowState_reachable : Reachable narrowState := (Reachable.new narrowIndex_new).after _

/-- The live vectors of the index. -/
def narrowVectors : Slice (List ℚ) := ⟨[[1], [9]], by decide⟩

/-- On two live vectors `train` and `retrain` both fail, so `retrain` accepts what `train` does. For
`train` they are too few for the quantizer, and what the cap leaves for `retrain` is too few for the
clusters. -/
theorem narrowState_retrain_accepts :
    (∀ sample s₀ t, sample.1 = narrowState.live.map (·.vector) →
      IvfIndex.new crates narrowState.dim narrowState.metric narrowState.cfg = .ok s₀ →
        call (.train sample) s₀ = .ok (.ok (), t) →
          ∃ t', call .retrain narrowState = .ok (.ok (), t')) ∧
    (∃ t, call .retrain narrowState = .ok (.error (.invalidConfig
      "IvfIndex::train requires sample.len() >= n_clusters"), t)) ∧
    ∃ t, call (.train narrowVectors) narrowIndex = .ok (.error (.invalidConfig
      "ProductQuantizer::train requires at least 256 vectors"), t) := by
  obtain ⟨haccepts, hretrain, htrain⟩ := retrain_accepts_iff narrowState_reachable
    (by decide +kernel) (by decide +kernel) (pqTrains _ _)
  refine ⟨haccepts.2 (.inr (.inl (by decide +kernel))),
    (hretrain _).2 (.inl ⟨by decide +kernel, rfl⟩), ?_⟩
  have hdim : narrowState.dim = 1 := by decide +kernel
  have hmetric : narrowState.metric = .manhattan := by decide +kernel
  have hcfg : narrowState.cfg = narrowConfig := by decide +kernel
  rw [hdim, hmetric, hcfg] at htrain
  apply (htrain narrowVectors narrowIndex _ (by decide +kernel) narrowIndex_new).2
  refine .inr ⟨?_, ?_, ?_⟩
  · rw [hcfg]
    decide
  · rw [hcfg]
    rfl
  · rw [hcfg]
    rfl

/-- Two clusters and a cap of one vector on the training sample. -/
def cappedConfig : IvfConfig := { flatConfig with training_sample_size := 1 }

/-- An empty index with this configuration. -/
def cappedIndex : IvfIndex crates := .fresh crates 1 .manhattan cappedConfig

/-- The index is what construction returns. -/
theorem cappedIndex_new : IvfIndex.new crates 1 .manhattan cappedConfig = .ok cappedIndex := by
  have hvalid : cappedConfig.Valid := (IvfConfig.validate_eq_ok _).1 rfl
  exact IvfIndex.new_eq_ok.2 ⟨Nat.one_pos, hvalid, rfl, rfl⟩

/-- The index, trained and with two items. -/
def cappedState : IvfIndex crates :=
  cappedIndex.after [.train twoVectors, .insert 3 [0] none, .insert 4 [10] none]

/-- The index with a capped sample is reachable. -/
theorem cappedState_reachable : Reachable cappedState := (Reachable.new cappedIndex_new).after _

/-- A new index with two clusters and a cap of one vector is trained on two vectors, but the index
that holds these two vectors is not retrained. -/
theorem retrain_rejects_trainable :
    Reachable cappedState ∧ cappedState.trained = true ∧ 1 ≤ cappedState.live_count ∧
    PqTrains crates cappedState.dim cappedState.cfg.seed ∧
    ¬ ∀ sample s₀ t, sample.1 = cappedState.live.map (·.vector) →
      IvfIndex.new crates cappedState.dim cappedState.metric cappedState.cfg = .ok s₀ →
        call (.train sample) s₀ = .ok (.ok (), t) →
          ∃ t', call .retrain cappedState = .ok (.ok (), t') := by
  refine ⟨cappedState_reachable, by decide +kernel, by decide +kernel, pqTrains _ _, ?_⟩
  intro haccepts
  have hsample : twoVectors.1 = cappedState.live.map (·.vector) := by decide +kernel
  have hdim : cappedState.dim = 1 := by decide +kernel
  have hmetric : cappedState.metric = .manhattan := by decide +kernel
  have hcfg : cappedState.cfg = cappedConfig := by decide +kernel
  rw [hdim, hmetric, hcfg] at haccepts
  have htrain : (match call (.train twoVectors) cappedIndex with
      | .ok (.ok (), _) => true
      | _ => false) = true := by decide +kernel
  have hretrain : (match call .retrain cappedState with
      | .ok (.ok (), _) => true
      | _ => false) = false := by decide +kernel
  split at htrain
  · next t hcall =>
    obtain ⟨t', hok⟩ := haccepts twoVectors cappedIndex t hsample cappedIndex_new hcall
    rw [hok] at hretrain
    cases hretrain
  · cases htrain

end IqdbIvf
