import IqdbIvf.Spec.Invariant

/-!
# The snapshot of a retraining

What `retrain` takes from an index before it empties the lists: the live entries in insertion order,
the seeded sample of their vectors, and the model that the training stages compute from it.
-/

set_option linter.unusedSectionVars false

namespace IqdbIvf

open Outcome Buckets

variable {F32 : Type} [Arith F32] {X : Crates F32} {s t : IvfIndex X}

/-! ## The stages -/

/-- The live entries, in insertion order. -/
def IvfIndex.live (s : IvfIndex X) : List (InvertedListEntry X) := IvfIndex.sortBySeq s.entries

/-- The working set that `retrain` draws from the given vectors. -/
def workingSet (cfg : IvfConfig) (vectors : List (List F32)) : List (List F32) :=
  match subsampleRefs vectors (min cfg.training_sample_size vectors.length) (.new cfg.seed) with
  | .ok r => r.1
  | .error _ => []

/-- The working set of a retraining. -/
def IvfIndex.sample (s : IvfIndex X) : List (List F32) := workingSet s.cfg (s.live.map (·.vector))

/-- The centroids that `retrain` computes. -/
def IvfIndex.recluster (s : IvfIndex X) : Fallible (List (List F32)) :=
  trainKmeans s.dim s.cfg.n_clusters s.cfg.seed s.sample s.sample.length

/-- The quantizer after a training stage on `sample`: a newly trained one in IVF-PQ mode, and what
it was in IVF-Flat mode. -/
def TrainsPq (cfg : IvfConfig) (sample : List (List F32)) (old new : Option X.ProductQuantizer) :
    Prop :=
  (cfg.use_pq = true ∧ ∃ pq, trainPq X cfg sample = .ok pq ∧ new = some pq) ∨
    (cfg.use_pq = false ∧ new = old)

/-! ## The live entries -/

/-- The live entries are the stored ones. -/
theorem IvfIndex.live_perm (s : IvfIndex X) : s.live.Perm s.entries :=
  List.perm_insertionSort _ _

/-- The live entries are in the order of their stamps. -/
theorem Inv.live_sorted (h : Inv s) : s.live.Pairwise fun a b => a.seq < b.seq := by
  have htrans : IsTrans (InvertedListEntry X) fun a b => a.seq ≤ b.seq :=
    ⟨fun _ _ _ => Nat.le_trans⟩
  have htotal : Std.Total fun a b : InvertedListEntry X => a.seq ≤ b.seq :=
    ⟨fun a b => Nat.le_total a.seq b.seq⟩
  have hle : s.live.Pairwise fun a b => a.seq ≤ b.seq := List.pairwise_insertionSort _ _
  -- The sort orders the stamps weakly, and no two of them are equal.
  have hne : (s.live.map (·.seq)).Nodup :=
    ((s.live_perm).map _).nodup_iff.2 h.seqs_nodup
  exact (hle.and (List.pairwise_map.1 hne)).imp fun hab => Nat.lt_of_le_of_ne hab.1 hab.2

/-- There are as many live entries as the count says. -/
theorem Inv.length_live (h : Inv s) : s.live.length = s.live_count := by
  rw [s.live_perm.length_eq, h.live_count]

/-- Every live vector has the dimension of the index. -/
theorem Inv.live_dim (h : Inv s) {e : InvertedListEntry X} (he : e ∈ s.live) :
    e.vector.length = s.dim :=
  h.vector_length (s.live_perm.mem_iff.1 he)

/-- The vectors of the live entries have the dimension of the index. -/
theorem Inv.live_vectors_dim (h : Inv s) : ∀ v ∈ s.live.map (·.vector), v.length = s.dim := by
  intro v hv
  obtain ⟨e, he, rfl⟩ := List.mem_map.1 hv
  exact h.live_dim he

/-- There are as many live vectors as the count says. -/
theorem Inv.length_live_vectors (h : Inv s) : (s.live.map (·.vector)).length = s.live_count := by
  rw [List.length_map, h.length_live]

/-- There are fewer than `2^64` live vectors. -/
theorem Inv.live_count_lt (h : Inv s) : s.live_count < 2^64 := by
  rw [h.live_count]
  exact h.length_lt

/-! ## The sample -/

/-- What `subsample_refs` returns to `retrain`: its size, and that it consists of live vectors. -/
theorem Inv.exists_subsample (h : Inv s) :
    ∃ rng, subsampleRefs (s.live.map (·.vector))
        (min s.cfg.training_sample_size (s.live.map (·.vector)).length) (.new s.cfg.seed) =
          .ok (s.sample, rng) ∧
      s.sample.length = min s.cfg.training_sample_size s.live_count ∧
      ∀ v ∈ s.sample, v ∈ s.live.map (·.vector) := by
  have hlt : (s.live.map (·.vector)).length < 2^64 := by
    rw [h.length_live_vectors]
    exact h.live_count_lt
  obtain ⟨r, hr, hlen, hmem⟩ := returns_iff.1 (subsampleRefs_returns hlt
    (min s.cfg.training_sample_size (s.live.map (·.vector)).length) (.new s.cfg.seed))
  have hsample : s.sample = r.1 := by
    unfold IvfIndex.sample workingSet
    rw [hr]
  rw [hsample]
  refine ⟨r.2, hr, ?_, hmem⟩
  rw [hlen, h.length_live_vectors, Nat.min_assoc, Nat.min_self]

/-- The size of the working set of a retraining. -/
theorem Inv.length_sample (h : Inv s) :
    s.sample.length = min s.cfg.training_sample_size s.live_count := by
  obtain ⟨-, -, hlen, -⟩ := h.exists_subsample
  exact hlen

/-- The vectors of the working set have the dimension of the index. -/
theorem Inv.sample_dims (h : Inv s) : ∀ v ∈ s.sample, v.length = s.dim := by
  obtain ⟨-, -, -, hmem⟩ := h.exists_subsample
  exact fun v hv => h.live_vectors_dim v (hmem v hv)

/-! ## k-means -/

/-- k-means fails with the error of its pre-checks, or returns centroids of the right shape. -/
theorem trainKmeans_cases (dim cap : ℕ) {n_clusters : ℕ} (hk : 1 ≤ n_clusters) (seed : UInt64)
    {sample : List (List F32)} (hn : sample.length < 2^64) (hcap : sample ≠ [] → 1 ≤ cap) :
    (∃ e, trainPrechecks dim n_clusters sample = .error e ∧
      trainKmeans dim n_clusters seed sample cap = .error (.err e)) ∨
    (trainPrechecks dim n_clusters sample = .ok () ∧
      ∃ cs, trainKmeans dim n_clusters seed sample cap = .ok cs ∧ Centroids dim n_clusters cs) := by
  cases hpre : trainPrechecks dim n_clusters sample with
  | error e => exact .inl ⟨e, rfl, trainKmeans_of_precheck_error hpre⟩
  | ok u =>
    have hne := (trainPrechecks_eq_ok.1 hpre).1
    exact .inr ⟨rfl, returns_iff.1 (trainKmeans_returns hk seed hn (hcap hne) hpre)⟩

/-- The centroids of a successful k-means have the right shape. -/
theorem centroids_of_trainKmeans {dim n_clusters cap : ℕ} {seed : UInt64}
    {sample cs : List (List F32)} (hk : 1 ≤ n_clusters) (hn : sample.length < 2^64)
    (hcap : sample ≠ [] → 1 ≤ cap) (h : trainKmeans dim n_clusters seed sample cap = .ok cs) :
    Centroids dim n_clusters cs := by
  rcases trainKmeans_cases dim cap hk seed hn hcap with ⟨e, -, herr⟩ | ⟨-, cs', hok, hcs⟩
  · rw [herr] at h
    cases h
  · rw [hok] at h
    obtain rfl := Except.ok.inj h
    exact hcs

/-- The k-means stage of a retraining fails with the error of its pre-checks, or returns centroids
of the right shape. -/
theorem Inv.recluster_cases (h : Inv s) :
    (∃ e, trainPrechecks s.dim s.cfg.n_clusters s.sample = .error e ∧
      s.recluster = .error (.err e)) ∨
    (trainPrechecks s.dim s.cfg.n_clusters s.sample = .ok () ∧
      ∃ cs, s.recluster = .ok cs ∧ Centroids s.dim s.cfg.n_clusters cs) := by
  have hlt : s.sample.length < 2^64 := by
    have hlen := h.length_sample
    have hlive := h.live_count_lt
    omega
  -- The cap that is passed on is the size of the sample itself.
  exact trainKmeans_cases s.dim s.sample.length h.valid.one_le_n_clusters s.cfg.seed hlt
    fun hne => List.length_pos_iff.2 hne

/-- The centroids of a retraining have the right shape. -/
theorem Inv.centroids_of_recluster (h : Inv s) {cs : List (List F32)}
    (hok : s.recluster = .ok cs) : Centroids s.dim s.cfg.n_clusters cs := by
  rcases h.recluster_cases with ⟨e, -, herr⟩ | ⟨-, cs', hok', hcs⟩
  · rw [herr] at hok
    cases hok
  · rw [hok'] at hok
    obtain rfl := Except.ok.inj hok
    exact hcs

/-! ## The quantizer -/

/-- The quantizer after a training stage is there exactly in IVF-PQ mode. -/
theorem TrainsPq.isSome {cfg : IvfConfig} {sample : List (List F32)}
    {old new : Option X.ProductQuantizer} (h : TrainsPq cfg sample old new)
    (hold : cfg.use_pq = false → old = none) : new.isSome = cfg.use_pq := by
  rcases h with ⟨huse, pq, -, rfl⟩ | ⟨huse, rfl⟩
  · rw [huse]
    rfl
  · rw [hold huse, huse]
    rfl

/-- In IVF-Flat mode a training stage leaves the quantizer alone. -/
theorem TrainsPq.eq_old {cfg : IvfConfig} {sample : List (List F32)}
    {old new : Option X.ProductQuantizer} (h : TrainsPq cfg sample old new)
    (huse : cfg.use_pq = false) : new = old := by
  rcases h with ⟨htrue, -⟩ | ⟨-, heq⟩
  · rw [huse] at htrue
    cases htrue
  · exact heq

/-- In IVF-PQ mode a training stage trains a quantizer. -/
theorem TrainsPq.exists_trained {cfg : IvfConfig} {sample : List (List F32)}
    {old new : Option X.ProductQuantizer} (h : TrainsPq cfg sample old new)
    (huse : cfg.use_pq = true) : ∃ pq, trainPq X cfg sample = .ok pq ∧ new = some pq := by
  rcases h with ⟨-, hpq⟩ | ⟨hfalse, -⟩
  · exact hpq
  · rw [huse] at hfalse
    cases hfalse

/-- The training stage determines the quantizer. -/
theorem TrainsPq.unique {cfg : IvfConfig} {sample : List (List F32)}
    {old pq pq' : Option X.ProductQuantizer} (h : TrainsPq cfg sample old pq)
    (h' : TrainsPq cfg sample old pq') : pq = pq' := by
  cases huse : cfg.use_pq with
  | false => rw [h.eq_old huse, h'.eq_old huse]
  | true =>
    obtain ⟨q, hq, rfl⟩ := h.exists_trained huse
    obtain ⟨q', hq', rfl⟩ := h'.exists_trained huse
    rw [Except.ok.inj (hq.symm.trans hq')]

end IqdbIvf
