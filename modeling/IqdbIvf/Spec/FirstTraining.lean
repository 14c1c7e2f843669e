import IqdbIvf.Spec.Rational

/-!
# The first training

Until its first successful training an index should have no centroids and no quantizer, whatever
trainings have failed. `train` stores the centroids before it trains the quantizer, so one failure
breaks this, that of a quantizer on a sample that k-means has taken, and no other call does
(`failed_train_traceless_iff`).
-/

set_option linter.unusedSectionVars false

namespace IqdbIvf

open Outcome Buckets Rational

variable {F32 : Type} [Arith F32] {X : Crates F32} {s t : IvfIndex X}

namespace IvfIndex

/-- k-means takes the sample: it is not empty, its vectors have the dimension of the index, and
there is one for each cluster. -/
def KmeansTakes (s : IvfIndex X) (sample : List (List F32)) : Prop :=
  sample ≠ [] ∧ (∀ v ∈ sample, v.length = s.dim) ∧ s.cfg.n_clusters ≤ sample.length

/-- The quantizer that the index configures takes the sample. -/
def QuantizerTakes (s : IvfIndex X) (sample : List (List F32)) : Prop :=
  ∀ m, s.cfg.pq_subvectors = some m →
    ∃ pq, X.trainQuantizer (X.withConfig m pqKCentroids s.cfg.seed) sample = .ok pq

/-- In IVF-PQ mode, the quantizer takes the sample if k-means does. -/
def TakenAlike (s : IvfIndex X) (sample : List (List F32)) : Prop :=
  s.cfg.use_pq = true → s.KmeansTakes sample → s.QuantizerTakes sample

/-- What the fields document: one centroid for each cluster after the training, and neither
centroids nor a quantizer before it. -/
structure AsTrained (s : IvfIndex X) : Prop where
  trained : s.trained = true → s.centroids.length = s.cfg.n_clusters
  untrained : s.trained = false → s.centroids = [] ∧ s.pq = none

end IvfIndex

/-- The pre-checks of k-means pass on what k-means takes. -/
theorem trainPrechecks_eq_ok_iff {sample : List (List F32)} :
    trainPrechecks s.dim s.cfg.n_clusters sample = .ok () ↔ s.KmeansTakes sample :=
  trainPrechecks_eq_ok

/-- Codebook training fails on what the quantizer does not take. -/
theorem Inv.trainPq_eq_ok_iff (h : Inv s) (huse : s.cfg.use_pq = true)
    {sample : List (List F32)} :
    (∃ pq, trainPq X s.cfg sample = .ok pq) ↔ s.QuantizerTakes sample := by
  obtain ⟨m, hm, -⟩ := h.valid.subvectors huse
  unfold trainPq IvfIndex.QuantizerTakes
  rw [hm]
  constructor
  · rintro hpq m' hm'
    obtain rfl := Option.some.inj hm'
    exact hpq
  · exact fun htakes => htakes m rfl

/-! ## One call -/

/-- A training that fails changes nothing when k-means and the quantizer take the same samples. -/
theorem Transition.eq_of_train_error {sample : Slice (List F32)} {e : IqdbError}
    (h : Transition s (.train sample) (.error e) t) (hs : Inv s) (htaken : s.TakenAlike sample.1) :
    t = s := by
  cases h with
  | trainTwice => rfl
  | trainKmeansFails => rfl
  | trainPqFails _ cs _ htrained hkmeans huse hpq =>
    -- k-means has returned, so its pre-checks had passed.
    cases hpre : trainPrechecks s.dim s.cfg.n_clusters sample.1 with
    | error e' =>
      rw [trainKmeans_of_precheck_error hpre] at hkmeans
      cases hkmeans
    | ok u =>
      obtain ⟨pq, hok⟩ := (hs.trainPq_eq_ok_iff huse).2
        (htaken huse (trainPrechecks_eq_ok_iff.1 hpre))
      rw [hpq] at hok
      cases hok

/-- A training of an index without centroids that changes nothing when it fails was given a sample
that k-means and the quantizer take alike. -/
theorem Inv.takenAlike_of_unchanged (h : Inv s) (htrained : s.trained = false)
    (hempty : s.centroids = []) {sample : Slice (List F32)}
    (hsame : ∀ e t, call (.train sample) s = .ok (.error e, t) → t = s) :
    s.TakenAlike sample.1 := by
  intro huse htakes
  obtain ⟨r, t, hcall, htransition⟩ := call_transition h (.train sample)
  have hpre := trainPrechecks_eq_ok_iff.2 htakes
  rw [← h.trainPq_eq_ok_iff huse]
  cases htransition with
  | trainTwice _ htrue =>
    rw [htrained] at htrue
    cases htrue
  | trainKmeansFails _ e _ herr =>
    rw [hpre] at herr
    cases herr
  | trainPqFails _ cs e _ hkmeans _ hpq =>
    -- The centroids stay behind, one for each cluster.
    have hcs := centroids_of_trainKmeans h.valid.one_le_n_clusters sample.2
      (fun _ => h.valid.one_le_sample) hkmeans
    have hlen := hcs.length_eq
    have hleft : cs = s.centroids := congrArg IvfIndex.centroids (hsame e _ hcall)
    rw [hleft, hempty, List.length_nil] at hlen
    exact absurd h.valid.one_le_n_clusters (by omega)
  | trained _ cs pq _ _ hpq =>
    obtain ⟨q, hq, -⟩ := hpq.exists_trained huse
    exact ⟨q, hq⟩

/-- A call keeps the documented fields when a training before the first successful one has a sample
that k-means and the quantizer take alike. -/
theorem Transition.asTrained {op : Op X} {r : Except IqdbError Unit} (h : Transition s op r t)
    (hs : Inv s) (hfields : s.AsTrained)
    (htaken : ∀ sample, op = .train sample → s.trained = false → s.TakenAlike sample.1) :
    t.AsTrained := by
  have ht := h.inv hs
  refine ⟨fun htrained => (ht.centroids htrained).length_eq, fun huntrained => ?_⟩
  have hbefore : s.trained = false := by
    rw [← Bool.not_eq_true]
    intro htrue
    rw [h.frame.trained htrue] at huntrained
    cases huntrained
  have hnone := (ht.untrained huntrained).2
  cases h with
  | trainPqFails sample cs e htrained hkmeans huse hpq =>
    have hsame := (Transition.trainPqFails sample cs e htrained hkmeans huse hpq).eq_of_train_error
      hs (htaken sample rfl htrained)
    have hleft : cs = s.centroids := congrArg IvfIndex.centroids hsame
    exact ⟨hleft.trans (hfields.untrained hbefore).1, hnone⟩
  | trained => cases huntrained
  | retrainKmeansFails e htrained =>
    rw [hbefore] at htrained
    cases htrained
  | retrainPqFails cs e htrained =>
    rw [hbefore] at htrained
    cases htrained
  | retrainEncodeFails cs pq done rest entry e htrained =>
    rw [hbefore] at htrained
    cases htrained
  | retrained cs pq htrained =>
    rw [hbefore] at htrained
    cases htrained
  | _ => exact ⟨(hfields.untrained hbefore).1, hnone⟩

/-- A constructed index has neither centroids nor a quantizer. -/
theorem IvfIndex.AsTrained.new {dim : ℕ} {metric : DistanceMetric} {cfg : IvfConfig}
    (h : IvfIndex.new X dim metric cfg = .ok s) : s.AsTrained := by
  obtain ⟨-, -, -, rfl⟩ := IvfIndex.new_eq_ok.1 h
  exact ⟨fun hfalse => absurd hfalse Bool.false_ne_true, fun _ => ⟨rfl, rfl⟩⟩

/-! ## Runs -/

/-- Every training that the calls request of an index which is untrained at that moment satisfies
`P`. -/
def FirstTrainings (ops : List (Op X)) (s₀ : IvfIndex X)
    (P : IvfIndex X → Slice (List F32) → Prop) : Prop :=
  ∀ before sample after rs s, ops = before ++ .train sample :: after →
    calls before s₀ = .ok (rs, s) → s.trained = false → P s sample

/-- Every state that the calls pass through satisfies `P`. -/
def Throughout (ops : List (Op X)) (s₀ : IvfIndex X) (P : IvfIndex X → Prop) : Prop :=
  ∀ before after rs s, ops = before ++ after → calls before s₀ = .ok (rs, s) → P s

/-- The first trainings of the remaining calls. -/
theorem FirstTrainings.tail {op : Op X} {ops : List (Op X)} {r : Except IqdbError Unit}
    {P : IvfIndex X → Slice (List F32) → Prop} (h : FirstTrainings (op :: ops) s P)
    (hcall : call op s = .ok (r, t)) : FirstTrainings ops t P := by
  intro before sample after rs u hops hcalls
  apply h (op :: before) sample after (r :: rs) u
  · rw [hops, List.cons_append]
  · rw [calls, hcall]
    simp only [ok_bind, hcalls]
    rfl

/-- The documented fields hold throughout when the first trainings have samples that k-means and the
quantizer take alike. -/
theorem Inv.throughout_asTrained (h : Inv s) (hfields : s.AsTrained) {ops : List (Op X)}
    (htaken : FirstTrainings ops s fun s sample => s.TakenAlike sample.1) :
    Throughout ops s IvfIndex.AsTrained := by
  intro before after rs t hops hcalls
  induction before generalizing s ops rs with
  | nil =>
    obtain ⟨-, rfl⟩ : [] = rs ∧ s = t := by simpa [calls] using hcalls
    exact hfields
  | cons op before ih =>
    obtain ⟨r, s', rs', hcall, hrest, -⟩ := calls_cons_eq_ok hcalls
    have htransition := transition_of_call h hcall
    subst hops
    refine ih (htransition.inv h) ?_ (htaken.tail hcall) rs' rfl hrest
    apply htransition.asTrained h hfields
    rintro sample rfl huntrained
    exact htaken [] sample (before ++ after) [] s rfl rfl huntrained

/-- In a run of a constructed index every state has the documented fields and every failed first
training leaves the state as it was, if and only if no first training has a sample that k-means
takes and the quantizer does not. -/
theorem failed_train_traceless_iff {dim : ℕ} {metric : DistanceMetric} {cfg : IvfConfig}
    (hnew : IvfIndex.new X dim metric cfg = .ok s) (ops : List (Op X)) :
    (Throughout ops s IvfIndex.AsTrained ∧ FirstTrainings ops s fun s sample =>
      ∀ e t, call (.train sample) s = .ok (.error e, t) → t = s) ↔
    FirstTrainings ops s fun s sample => s.TakenAlike sample.1 := by
  have hreach := Reachable.new hnew
  constructor
  · rintro ⟨hfields, hsame⟩ before sample after rs u hops hcalls huntrained
    have hu := (hreach.calls hcalls).inv
    have hempty := ((hfields before _ rs u hops hcalls).untrained huntrained).1
    exact hu.takenAlike_of_unchanged huntrained hempty
      (hsame before sample after rs u hops hcalls huntrained)
  · intro htaken
    refine ⟨hreach.inv.throughout_asTrained (.new hnew) htaken, ?_⟩
    intro before sample after rs u hops hcalls huntrained e t hcall
    have hu := (hreach.calls hcalls).inv
    exact (transition_of_call hu hcall).eq_of_train_error hu
      (htaken before sample after rs u hops hcalls huntrained)

/-- A sample of one vector. -/
def oneVector : Slice (List ℚ) := ⟨[[0]], by decide⟩

/-- The IVF-Flat index refuses one vector for its two clusters without a trace. The IVF-PQ index has
one cluster, so that k-means takes the vector and the quantizer refuses it. -/
theorem flatIndex_traceless_pqIndex_not :
    (Throughout [.train oneVector, .train twoVectors] flatIndex IvfIndex.AsTrained ∧
      FirstTrainings [.train oneVector, .train twoVectors] flatIndex fun s sample =>
        ∀ e t, call (.train sample) s = .ok (.error e, t) → t = s) ∧
    ¬ (Throughout [.train oneVector, .train zeroVectors] pqIndex IvfIndex.AsTrained ∧
      FirstTrainings [.train oneVector, .train zeroVectors] pqIndex fun s sample =>
        ∀ e t, call (.train sample) s = .ok (.error e, t) → t = s) := by
  constructor
  · apply (failed_train_traceless_iff flatIndex_new _).2
    intro before sample after rs s _ hcalls _ huse
    -- No call of the run turns IVF-PQ mode on.
    have hmode := (transitions_of_calls (Inv.new flatIndex_new) hcalls).frame.cfg.use_pq
    rw [huse] at hmode
    cases hmode
  · intro htraceless
    have htaken := (failed_train_traceless_iff pqIndex_new _).1 htraceless [] oneVector
      [.train zeroVectors] [] pqIndex rfl rfl rfl rfl
    obtain ⟨pq, hpq⟩ := htaken ⟨by decide, by decide, by decide⟩ 1 rfl
    cases hpq

/-- The quantizer refuses a sample of fewer than 256 vectors, and a sample of one vector leaves the
index untrained with the centroid that k-means has computed from it. -/
theorem failed_train_leaves_centroids :
    IvfIndex.new crates 1 .manhattan pqConfig = .ok pqIndex ∧ pqIndex.trained = false ∧
    (∀ pq sample, sample.length < 256 → ¬ ∃ q, crates.trainQuantizer pq sample = .ok q) ∧
    ¬ ∀ e t, call (.train oneVector) pqIndex = .ok (.error e, t) →
      t = pqIndex ∧ t.centroids.length = (if t.trained then t.cfg.n_clusters else 0) := by
  refine ⟨pqIndex_new, rfl, ?_, ?_⟩
  · rintro pq sample hlt ⟨q, hq⟩
    dsimp only [crates] at hq
    rw [if_pos hlt] at hq
    cases hq
  · intro hsame
    obtain ⟨r, hcall⟩ := (Inv.new pqIndex_new).call_after (.train oneVector)
    have herr : (match call (.train oneVector) pqIndex with
        | .ok (.error _, _) => true
        | _ => false) = true := by decide +kernel
    have hleft : (pqIndex.after [.train oneVector]).centroids = [[0]] := by decide +kernel
    rw [hcall] at herr
    cases r with
    | ok u => cases herr
    | error e =>
      have hempty : pqIndex.centroids = [] := rfl
      rw [(hsame e _ hcall).1, hempty] at hleft
      cases hleft

end IqdbIvf
