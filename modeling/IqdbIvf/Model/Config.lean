import IqdbIvf.Model.Types

/-!
# The configuration

`src/config.rs`: the fields, the defaults and the checks that do not need the dimension or the
metric.
-/

namespace IqdbIvf

/-- `IvfConfig`. -/
structure IvfConfig where
  /-- Number of k-means partitions. -/
  n_clusters : ℕ
  /-- Number of clusters searched at query time. -/
  n_probes : ℕ
  /-- Cap on the training sample passed to k-means. -/
  training_sample_size : ℕ
  /-- Product quantization within each inverted list. -/
  use_pq : Bool
  /-- Subvector count for IVF-PQ. -/
  pq_subvectors : Option ℕ
  /-- Refine factor for IVF-PQ; `0` is no refine. -/
  pq_refine_factor : UInt32
  /-- Seed of the generator and of the codebook trainer. -/
  seed : UInt64
  deriving DecidableEq, Repr

/-- `IvfConfig::default`. -/
def IvfConfig.default : IvfConfig where
  n_clusters := 256
  n_probes := 8
  training_sample_size := 65536
  use_pq := false
  pq_subvectors := none
  pq_refine_factor := 4
  seed := 0xDEADBEEFCAFEF00D

/-- `IvfConfig::validate`. -/
def IvfConfig.validate (cfg : IvfConfig) : Except IqdbError Unit :=
  if cfg.n_clusters = 0 then
    .error (.invalidConfig "IvfConfig.n_clusters must be greater than zero")
  else if cfg.n_probes = 0 then
    .error (.invalidConfig "IvfConfig.n_probes must be greater than zero")
  else if cfg.n_probes > cfg.n_clusters then
    .error (.invalidConfig "IvfConfig.n_probes must be <= n_clusters")
  else if cfg.training_sample_size = 0 then
    .error (.invalidConfig "IvfConfig.training_sample_size must be greater than zero")
  else if cfg.use_pq then
    match cfg.pq_subvectors with
    | some m =>
      if 1 ≤ m then .ok ()
      else .error (.invalidConfig "IvfConfig.pq_subvectors must be >= 1 when use_pq = true")
    | none =>
      .error (.invalidConfig "IvfConfig.use_pq = true requires pq_subvectors = Some(_)")
  else .ok ()

/-- What `validate` accepts. -/
structure IvfConfig.Valid (cfg : IvfConfig) : Prop where
  one_le_n_probes : 1 ≤ cfg.n_probes
  n_probes_le : cfg.n_probes ≤ cfg.n_clusters
  one_le_sample : 1 ≤ cfg.training_sample_size
  subvectors : cfg.use_pq = true → ∃ m, cfg.pq_subvectors = some m ∧ 1 ≤ m

/-- A valid configuration has a cluster. -/
theorem IvfConfig.Valid.one_le_n_clusters {cfg : IvfConfig} (h : cfg.Valid) : 1 ≤ cfg.n_clusters :=
  Nat.le_trans h.one_le_n_probes h.n_probes_le

/-- `validate` accepts exactly the valid configurations. -/
theorem IvfConfig.validate_eq_ok (cfg : IvfConfig) : cfg.validate = .ok () ↔ cfg.Valid := by
  constructor
  · intro h
    unfold IvfConfig.validate at h
    split_ifs at h with h1 h2 h3 h4 h5
    · refine ⟨by omega, by omega, by omega, fun _ => ?_⟩
      cases hm : cfg.pq_subvectors with
      | none => simp [hm] at h
      | some m =>
        simp only [hm, ite_eq_left_iff, reduceCtorEq, imp_false, not_not] at h
        exact ⟨m, rfl, h⟩
    · exact ⟨by omega, by omega, by omega, fun h => absurd h h5⟩
  · intro ⟨h1, h2, h3, h4⟩
    unfold IvfConfig.validate
    rw [if_neg (by omega), if_neg (by omega), if_neg (by omega), if_neg (by omega)]
    split_ifs with h5
    · obtain ⟨m, hm, h⟩ := h4 h5
      simp only [hm, if_pos h]
    · rfl

/-- The default configuration passes its own check. -/
theorem IvfConfig.default_valid : IvfConfig.default.Valid :=
  (IvfConfig.validate_eq_ok _).1 rfl

end IqdbIvf
