import IqdbIvf.Spec.Batches
import IqdbIvf.Spec.Rational
import IqdbIvf.Spec.SinglePrecision

/-!
# Scores that are not numbers

`f32::total_cmp` puts the NaNs without a sign behind all numbers, but those with one before them,
and for the inner product the sign of every raw score is flipped before it is ranked. So which NaN
outranks the numbers depends on the metric (`LeadsUnder`). A search keeps the NaNs behind the
numbers exactly when there are none of this kind, or no numbers that they could displace
(`nan_never_outranks_iff`).
-/

set_option linter.unusedSectionVars false

namespace IqdbIvf

open Outcome Ranking Selection

/-- A raw score that the sign convention of the metric makes a NaN with a sign. -/
def LeadsUnder (metric : DistanceMetric) (raw : Binary32) : Prop :=
  raw.IsNaN ∧ (raw.sign = true ↔ metric ≠ .dotProduct)

/-- Whether a raw score is of this kind is decidable. -/
instance (metric : DistanceMetric) : DecidablePred (LeadsUnder metric) := fun raw =>
  inferInstanceAs (Decidable (raw.IsNaN ∧ (raw.sign = true ↔ metric ≠ .dotProduct)))

section Scores

variable [Operations] {X : Crates Binary32} {s : IvfIndex X} {query : List Binary32}
  {evaluator : Option X.FilterEvaluator} {scores : List Binary32}

/-! ## The sign convention -/

/-- The sign convention does not make a number of a NaN, nor the other way round. -/
theorem isNaN_orient (metric : DistanceMetric) (raw : Binary32) :
    (orient metric raw).IsNaN ↔ raw.IsNaN := by
  unfold orient
  split
  · exact Binary32.isNaN_flip raw
  · exact Iff.rfl

/-- Which raw scores come before all numbers. -/
theorem leading_orient (metric : DistanceMetric) (raw : Binary32) :
    (orient metric raw).Leading ↔ LeadsUnder metric raw := by
  unfold Binary32.Leading LeadsUnder
  rw [isNaN_orient]
  apply and_congr_right'
  unfold orient
  by_cases hmetric : metric = .dotProduct
  · rw [if_pos hmetric]
    show raw.flip.sign = true ↔ _
    rw [Binary32.sign_flip]
    simp [hmetric]
  · rw [if_neg hmetric]
    simp [hmetric]

/-- A ranking by patterns separates the NaNs from the numbers. -/
theorem separated_rank {α : Type} {score : α → Binary32} {stamp : α → ℕ} {xs : List α}
    (hd : (xs.map stamp).Nodup) :
    Separated (fun a => (score a).Leading) (fun a => (score a).IsNaN)
      (rank Binary32.totalCmp score stamp xs) := by
  refine (pairwise_rank hd).imp fun {a b} h => ?_
  have hle : (Binary32.totalCmp (score a) (score b)).isLE = true := by
    rcases h with h | ⟨h, -⟩
    · rw [h]
      rfl
    · rw [h]
      rfl
  refine ⟨Binary32.leading_of_isLE hle, fun ha => ?_⟩
  rcases (Binary32.isNaN_iff _).1 ha with hleading | htrailing
  · exact .inl hleading
  · exact .inr (Binary32.trailing_of_isLE hle htrailing).1

/-! ## Pass 1 -/

/-- No cluster with a NaN score is probed in place of one whose score is a number. -/
def ProbesNumbers (scores : List Binary32) (probed : List ℕ) : Prop :=
  ∀ c raw, scores[c]? = some raw → c ∈ probed → raw.IsNaN →
    ∀ c' raw', scores[c']? = some raw' → ¬ raw'.IsNaN → c' ∈ probed

/-- A cluster is among the first by its numbered score. -/
theorem mem_take_rankedScores {c n : ℕ} {raw : Binary32} (hraw : scores[c]? = some raw) :
    c ∈ ((s.rankedScores scores).take n).map Prod.snd ↔
      (raw, c) ∈ (s.rankedScores scores).take n := by
  rw [List.mem_map]
  constructor
  · rintro ⟨⟨raw', c'⟩, hmem, rfl⟩
    have hget : scores[c']? = some raw' :=
      List.mem_zipIdx_iff_getElem?.1 (mem_rank.1 (List.mem_of_mem_take hmem))
    obtain rfl := Option.some.inj (hget.symm.trans hraw)
    exact hmem
  · exact fun hmem => ⟨_, hmem, rfl⟩

/-- Pass 1 prefers the numbers exactly when no score comes before them, or there are no numbers, or
the probes are enough for all numbers and what comes before them. -/
theorem probesNumbers_iff (hn : 0 < s.cfg.n_probes) :
    ProbesNumbers scores (((s.rankedScores scores).take s.cfg.n_probes).map Prod.snd) ↔
      (∀ raw ∈ scores, ¬ LeadsUnder s.metric raw) ∨ (∀ raw ∈ scores, raw.IsNaN) ∨
        scores.countP (fun raw => LeadsUnder s.metric raw ∨ ¬ raw.IsNaN) ≤ s.cfg.n_probes := by
  have hmem : ∀ p : Binary32 × ℕ, p ∈ s.rankedScores scores ↔ scores[p.2]? = some p.1 := by
    intro p
    rw [← List.mem_zipIdx_iff_getElem?]
    exact mem_rank
  have hall : ∀ P : Binary32 → Prop,
      (∀ p ∈ s.rankedScores scores, P p.1) ↔ ∀ raw ∈ scores, P raw := by
    intro P
    constructor
    · intro h raw hraw
      obtain ⟨i, hi⟩ := List.mem_iff_getElem?.1 hraw
      exact h (raw, i) ((hmem _).2 hi)
    · exact fun h p hp => h p.1 (List.mem_of_getElem? ((hmem p).1 hp))
  have hcount : (s.rankedScores scores).countP
      (fun p => LeadsUnder s.metric p.1 ∨ ¬ p.1.IsNaN) =
      scores.countP fun raw => LeadsUnder s.metric raw ∨ ¬ raw.IsNaN := by
    calc (s.rankedScores scores).countP (fun p => LeadsUnder s.metric p.1 ∨ ¬ p.1.IsNaN)
        = scores.zipIdx.countP (fun p => LeadsUnder s.metric p.1 ∨ ¬ p.1.IsNaN) :=
          (rank_perm _).countP_eq _
      _ = (scores.zipIdx.map Prod.fst).countP
            (fun raw => LeadsUnder s.metric raw ∨ ¬ raw.IsNaN) := by
          rw [List.countP_map]
          rfl
      _ = scores.countP fun raw => LeadsUnder s.metric raw ∨ ¬ raw.IsNaN := by
          rw [List.zipIdx_map_fst]
  have hsep : Separated (fun p => LeadsUnder s.metric p.1) (fun p => p.1.IsNaN)
      (s.rankedScores scores) := by
    have h : Separated (fun p => (orient s.metric p.1).Leading)
        (fun p => (orient s.metric p.1).IsNaN) (s.rankedScores scores) :=
      separated_rank (zipIdx_snd_nodup scores)
    simp only [leading_orient, isNaN_orient] at h
    exact h
  have hnodup : (s.rankedScores scores).Nodup :=
    ((rank_perm _).nodup_iff).2 (List.Nodup.of_map _ (zipIdx_snd_nodup scores))
  have hiff := no_outlier_instead_iff hsep (fun _ h => h.1) hnodup hn
  rw [hall fun raw => ¬ LeadsUnder s.metric raw, hall Binary32.IsNaN, hcount] at hiff
  rw [← hiff]
  constructor
  · intro h p hp hnan q hq hnumber
    have hraw := (hmem p).1 (List.mem_of_mem_take hp)
    have hraw' := (hmem q).1 hq
    exact (mem_take_rankedScores hraw').1
      (h p.2 p.1 hraw ((mem_take_rankedScores hraw).2 hp) hnan q.2 q.1 hraw' hnumber)
  · intro h c raw hraw hc hnan c' raw' hraw' hnumber
    exact (mem_take_rankedScores hraw').2
      (h (raw, c) ((mem_take_rankedScores hraw).1 hc) hnan (raw', c') ((hmem _).2 hraw') hnumber)

/-! ## Pass 2 -/

/-- No hit with a NaN score is returned before, or in place of, a candidate whose score is a
number: every such candidate is among the hits before it. -/
def NumbersFirst (metric : DistanceMetric) (competes : InvertedListEntry X → Binary32 → Prop)
    (hits : List (Hit X)) : Prop :=
  ∀ before hit after, hits = before ++ hit :: after → hit.distance.IsNaN →
    ∀ e raw, competes e raw → ¬ raw.IsNaN → hitOf (e, orient metric raw) ∈ before

/-- The first hits of a ranking of candidates have the numbers first exactly when no score comes
before the numbers, or there are no numbers. -/
theorem numbersFirst_iff {metric : DistanceMetric}
    {competes : InvertedListEntry X → Binary32 → Prop}
    {ps : List (InvertedListEntry X × Binary32)} (hd : (ps.map fun p => p.1.seq).Nodup)
    (hmem : ∀ e d, (e, d) ∈ ps ↔ ∃ raw, competes e raw ∧ d = orient metric raw) {k : ℕ}
    (hk : 0 < k) :
    NumbersFirst metric competes
        (((rank Arith.totalCmp Prod.snd (fun p => p.1.seq) ps).take k).map hitOf) ↔
      (∀ e raw, competes e raw → ¬ LeadsUnder metric raw) ∨
        ∀ e raw, competes e raw → raw.IsNaN := by
  have hsep : Separated (fun p => p.2.Leading) (fun p => p.2.IsNaN)
      (rank Binary32.totalCmp Prod.snd (fun p => p.1.seq) ps) := separated_rank hd
  have hiff := outliers_behind_iff hitOf hsep (fun _ h => h.1) hk
  have hranked : ∀ P : Binary32 → Prop,
      (∀ p ∈ rank Binary32.totalCmp Prod.snd (fun p => p.1.seq) ps, P p.2) ↔
        ∀ e raw, competes e raw → P (orient metric raw) := by
    intro P
    constructor
    · intro h e raw hraw
      exact h (e, orient metric raw) (mem_rank.2 ((hmem _ _).2 ⟨raw, hraw, rfl⟩))
    · intro h p hp
      obtain ⟨raw, hraw, hd⟩ := (hmem p.1 p.2).1 (mem_rank.1 hp)
      rw [hd]
      exact h p.1 raw hraw
  rw [hranked fun d => ¬ d.Leading, hranked Binary32.IsNaN] at hiff
  simp only [leading_orient, isNaN_orient] at hiff
  rw [← hiff]
  constructor
  · intro h before p after htake hnan q hq hnumber
    obtain ⟨raw, hraw, hd⟩ := (hmem q.1 q.2).1 (mem_rank.1 hq)
    have hsplit : ((rank Arith.totalCmp Prod.snd (fun p => p.1.seq) ps).take k).map hitOf =
        before.map hitOf ++ hitOf p :: after.map hitOf := by
      rw [← List.map_cons, ← List.map_append]
      exact congrArg (List.map hitOf) htake
    rw [hd, isNaN_orient] at hnumber
    have hfound := h _ _ _ hsplit hnan q.1 raw hraw hnumber
    rwa [← hd] at hfound
  · intro h before hit after hhits hnan e raw hraw hnumber
    obtain ⟨before', rest, htake, rfl, hrest⟩ := List.map_eq_append_iff.1 hhits
    obtain ⟨p, after', rfl, rfl, -⟩ := List.map_eq_cons_iff.1 hrest
    have hq : (e, orient metric raw) ∈ rank Binary32.totalCmp Prod.snd (fun p => p.1.seq) ps :=
      mem_rank.2 ((hmem _ _).2 ⟨raw, hraw, rfl⟩)
    exact h before' p after' htake hnan _ hq (by rwa [isNaN_orient])

/-- A search of a trained IVF-Flat index, under any raw scores: pass 1 probes no cluster with a NaN
score in place of one with a number exactly when no centroid's score leads under the metric, or none
is a number, or the probes are enough for all that lead or are numbers; and no NaN is returned
before, or in place of, a number exactly when no candidate's score leads, or none is a number. -/
theorem nan_never_outranks_iff (hs : Reachable s) (hflat : s.cfg.use_pq = false)
    {params : SearchParams X} (hr : Reaches s query params evaluator)
    (hscores : s.rawScores query s.centroids = .ok scores) :
    ∃ probed, rankCentroids s query = .ok probed ∧
      (ProbesNumbers scores probed ↔
        (∀ raw ∈ scores, ¬ LeadsUnder s.metric raw) ∨ (∀ raw ∈ scores, raw.IsNaN) ∨
          scores.countP (fun raw => LeadsUnder s.metric raw ∨ ¬ raw.IsNaN) ≤ s.cfg.n_probes) ∧
      ∀ hits, s.search query params = .ok hits →
        (NumbersFirst s.metric (s.Competes query evaluator scores) hits ↔
          (∀ e raw, s.Competes query evaluator scores e raw → ¬ LeadsUnder s.metric raw) ∨
            ∀ e raw, s.Competes query evaluator scores e raw → raw.IsNaN) := by
  have h := hs.inv
  refine ⟨_, rankCentroids_of_rawScores hscores, probesNumbers_iff h.valid.one_le_n_probes, ?_⟩
  intro hits hsearch
  obtain ⟨ps, hd, hmem, rfl⟩ := h.search_flat_of_rawScores hflat hr hscores hsearch
  have hk : 0 < params.k.toNat := by
    apply Nat.pos_of_ne_zero
    exact fun hzero => hr.k_ne_zero (UInt64.toNat.inj hzero)
  exact numbersFirst_iff hd hmem hk

end Scores

/-! ## A NaN that outranks a number -/

namespace Ieee

/-- One cluster in IVF-Flat mode. -/
def flatConfig : IvfConfig where
  n_clusters := 1
  n_probes := 1
  training_sample_size := 1
  use_pq := false
  pq_subvectors := none
  pq_refine_factor := 0
  seed := 7

/-- An empty index of dimension `1` with the inner product. -/
def flatIndex : IvfIndex crates := .fresh crates 1 .dotProduct flatConfig

/-- The index is what construction returns. -/
theorem flatIndex_new : IvfIndex.new crates 1 .dotProduct flatConfig = .ok flatIndex := by
  have hvalid : flatConfig.Valid := (IvfConfig.validate_eq_ok _).1 rfl
  exact IvfIndex.new_eq_ok.2 ⟨Nat.one_pos, hvalid, rfl, rfl⟩

/-- The quiet NaN without a sign. -/
def quietNaN : Binary32 := ⟨0x7FC00000⟩

/-- A training sample of one vector. -/
def oneVector : Slice (List Binary32) := ⟨[[1]], by decide⟩

/-- The index, trained and with two items, one of them with a NaN in its vector. -/
def nanState : IvfIndex crates := flatIndex.after [.train oneVector, .insert 3 [1] none,
  .insert 4 [quietNaN] none]

/-- The state is reachable. -/
theorem nanState_reachable : Reachable nanState := (Reachable.new flatIndex_new).after _

/-- A query for one hit reaches the passes. -/
theorem nanState_reaches : Reaches nanState [1] ⟨1, .dotProduct, none⟩ none where
  trained := by decide +kernel
  dim := by decide +kernel
  metric := by decide +kernel
  k_ne_zero := by decide
  live := by decide +kernel
  filter := rfl

/-- The raw score of the centroid. -/
theorem nanState_rawScores : nanState.rawScores [1] nanState.centroids = .ok [1] := by
  decide +kernel

/-- A query of the index, with a score of the centroid that is a number and a candidate whose score
is a NaN that leads. -/
theorem nanState_nan_never_outranks : ∃ probed, rankCentroids nanState [1] = .ok probed ∧
    (ProbesNumbers [1] probed ↔
      (∀ raw ∈ ([1] : List Binary32), ¬ LeadsUnder nanState.metric raw) ∨
        (∀ raw ∈ ([1] : List Binary32), raw.IsNaN) ∨
        ([1] : List Binary32).countP (fun raw => LeadsUnder nanState.metric raw ∨ ¬ raw.IsNaN) ≤
          nanState.cfg.n_probes) ∧
    ∀ hits, nanState.search [1] ⟨1, .dotProduct, none⟩ = .ok hits →
      (NumbersFirst nanState.metric (nanState.Competes [1] none [1]) hits ↔
        (∀ e raw, nanState.Competes [1] none [1] e raw → ¬ LeadsUnder nanState.metric raw) ∨
          ∀ e raw, nanState.Competes [1] none [1] e raw → raw.IsNaN) :=
  nan_never_outranks_iff nanState_reachable (by decide +kernel) nanState_reaches nanState_rawScores

/-- The inner product of one with itself is a number, and a candidate of the query. -/
theorem nanState_competes : ∃ e, nanState.Competes [1] none [1] e 1 := by
  have hscored : (((nanState.kept none 0).zip ([1, quietNaN] : List Binary32)).any
      fun p => p.2 = 1) = true := by decide +kernel
  obtain ⟨⟨e, raw⟩, hzip, hraw⟩ := List.any_eq_true.1 hscored
  obtain rfl : raw = 1 := of_decide_eq_true hraw
  exact ⟨e, 0, ⟨1, rfl, by decide +kernel⟩, _, by decide +kernel, hzip⟩

/-- The search for one hit returns the item with the NaN, in place of the one whose score is a
number. -/
theorem nan_outranks_number : Reachable nanState ∧ nanState.cfg.use_pq = false ∧
    (∃ hits, nanState.search [1] ⟨1, .dotProduct, none⟩ = .ok hits ∧ hits.length = 1 ∧
      ∀ hit ∈ hits, hit.distance.IsNaN) ∧
    ¬ ∀ hits, nanState.search [1] ⟨1, .dotProduct, none⟩ = .ok hits →
      NumbersFirst nanState.metric (nanState.Competes [1] none [1]) hits := by
  have hrun : (match nanState.search [1] ⟨1, .dotProduct, none⟩ with
      | .ok hits => hits.map fun hit => (hit.id, decide hit.distance.IsNaN)
      | .error _ => []) = [(4, true)] := by decide +kernel
  split at hrun
  · next hits hsearch =>
    obtain ⟨hit, rfl, hhit⟩ := List.map_eq_singleton_iff.1 hrun
    have hnan : hit.distance.IsNaN := of_decide_eq_true (Prod.mk.inj hhit).2
    refine ⟨nanState_reachable, by decide +kernel, ⟨_, hsearch, rfl, ?_⟩, fun hfirst => ?_⟩
    · intro hit' hmem
      rwa [List.mem_singleton.1 hmem]
    · obtain ⟨e, he⟩ := nanState_competes
      exact List.not_mem_nil
        (hfirst _ hsearch [] hit [] rfl hnan e 1 he (by decide +kernel))
  · cases hrun

end Ieee

end IqdbIvf
