import IqdbIvf.Spec.Rational

/-!
# Retraining

When a retraining succeeds, and what it leaves when it does not. It succeeds exactly when each of
its stages does on the seeded sample of the live vectors (`Retrainable`). One that fails has emptied
the index before the stage that failed, so it loses items whenever there were any
(`retrain_error_keeps_state_iff`).
-/

set_option linter.unusedSectionVars false

namespace IqdbIvf

open Outcome Buckets Rational

variable {F32 : Type} [Arith F32] {X : Crates F32} {s t : IvfIndex X}

/-! ## When a retraining succeeds -/

/-- Every stage of a retraining of a non-empty index succeeds: the capped sample has a vector for
each cluster, and in IVF-PQ mode the quantizer can be trained on the sample and then encodes every
live vector. -/
def IvfIndex.Retrainable (s : IvfIndex X) : Prop :=
  s.cfg.n_clusters ≤ min s.cfg.training_sample_size s.live_count ∧
    (s.cfg.use_pq = true → ∃ pq, trainPq X s.cfg s.sample = .ok pq ∧
      ∀ e ∈ s.live, ∃ code, X.quantize pq e.vector = .ok code)

/-- The stages of a successful retraining, with the model that they compute. -/
structure Retrains (s : IvfIndex X) (cs : List (List F32)) (pq : Option X.ProductQuantizer) :
    Prop where
  kmeans : s.recluster = .ok cs
  trains : TrainsPq s.cfg s.sample s.pq pq
  encodes : ∀ e ∈ s.live, (s.drained cs pq).Encodes e.vector

/-- A vector is encoded under a quantizer when the quantizer encodes it. -/
theorem encodes_drained_some {cs : List (List F32)} {pq : X.ProductQuantizer} {v : List F32} :
    (s.drained cs (some pq)).Encodes v ↔ ∃ code, X.quantize pq v = .ok code := by
  unfold IvfIndex.Encodes
  show (∃ code, (X.quantize pq v).map some = .ok code) ↔ _
  cases X.quantize pq v with
  | error e => simp [Except.map]
  | ok code => simp [Except.map]

/-- Without a quantizer every vector is encoded. -/
theorem encodes_drained_none {cs : List (List F32)} {v : List F32} :
    (s.drained cs none).Encodes v := ⟨none, rfl⟩

/-- The working set of a non-empty index is not empty. -/
theorem Inv.sample_ne_nil (h : Inv s) (hlive : s.live_count ≠ 0) : s.sample ≠ [] := by
  have hlen := h.length_sample
  have hone := h.valid.one_le_sample
  rw [← List.length_pos_iff]
  omega

/-- The k-means stage succeeds exactly when the capped sample has a vector for each cluster. -/
theorem Inv.recluster_ok_iff (h : Inv s) (hlive : s.live_count ≠ 0) :
    (∃ cs, s.recluster = .ok cs) ↔
      s.cfg.n_clusters ≤ min s.cfg.training_sample_size s.live_count := by
  have hpre : trainPrechecks s.dim s.cfg.n_clusters s.sample = .ok () ↔
      s.cfg.n_clusters ≤ min s.cfg.training_sample_size s.live_count := by
    rw [trainPrechecks_eq_ok, ← h.length_sample]
    constructor
    · rintro ⟨-, -, hle⟩
      exact hle
    · intro hle
      exact ⟨h.sample_ne_nil hlive, h.sample_dims, hle⟩
  rcases h.recluster_cases with ⟨e, herr, hfail⟩ | ⟨hok, cs, hcs, -⟩
  · rw [← hpre, herr, hfail]
    constructor
    · rintro ⟨cs, hcs⟩
      cases hcs
    · intro hok
      cases hok
  · rw [← hpre, hcs]
    exact ⟨fun _ => hok, fun _ => ⟨cs, rfl⟩⟩

/-- An index is retrainable when the stages of its retraining succeed. -/
theorem Inv.retrainable_iff (h : Inv s) (htrained : s.trained = true) (hlive : s.live_count ≠ 0) :
    s.Retrainable ↔ ∃ cs pq, Retrains s cs pq := by
  unfold IvfIndex.Retrainable
  rw [← h.recluster_ok_iff hlive]
  constructor
  · rintro ⟨⟨cs, hcs⟩, hpq⟩
    cases huse : s.cfg.use_pq with
    | false =>
      have hnone := (h.pq_eq_none_iff htrained).2 huse
      refine ⟨cs, none, hcs, .inr ⟨huse, hnone.symm⟩, fun e _ => encodes_drained_none⟩
    | true =>
      obtain ⟨pq, htrain, hcode⟩ := hpq huse
      exact ⟨cs, some pq, hcs, .inl ⟨huse, pq, htrain, rfl⟩,
        fun e he => encodes_drained_some.2 (hcode e he)⟩
  · rintro ⟨cs, pq, hcs, hpq, hcode⟩
    refine ⟨⟨cs, hcs⟩, fun huse => ?_⟩
    obtain ⟨q, htrain, rfl⟩ := hpq.exists_trained huse
    exact ⟨q, htrain, fun e he => encodes_drained_some.1 (hcode e he)⟩

/-- The stages determine the model. -/
theorem Retrains.unique {cs cs' : List (List F32)} {pq pq' : Option X.ProductQuantizer}
    (h : Retrains s cs pq) (hkmeans : s.recluster = .ok cs')
    (hpq : TrainsPq s.cfg s.sample s.pq pq') : cs = cs' ∧ pq = pq' :=
  ⟨Except.ok.inj (h.kmeans.symm.trans hkmeans), h.trains.unique hpq⟩

/-- When its stages succeed a retraining ends with `Ok`, and places every live entry under the new
model. -/
theorem Inv.retrain_of_retrains (h : Inv s) (htrained : s.trained = true)
    (hlive : s.live_count ≠ 0) {cs : List (List F32)} {pq : Option X.ProductQuantizer}
    (hr : Retrains s cs pq) :
    call (X := X) .retrain s = .ok (.ok (), (s.drained cs pq).placeAll s.live) := by
  obtain ⟨r, t, hcall, htransition⟩ := call_transition h (.retrain : Op X)
  rw [hcall]
  have hkmeans := hr.kmeans
  -- Each other exit contradicts one of the stages.
  cases htransition with
  | retrainUntrained hfalse =>
    rw [htrained] at hfalse
    cases hfalse
  | retrainEmpty _ hzero => exact absurd hzero hlive
  | retrainKmeansFails e _ _ hfails =>
    have hfail : s.recluster = .error (.err e) := trainKmeans_of_precheck_error hfails
    rw [hfail] at hkmeans
    cases hkmeans
  | retrainPqFails cs' e _ _ _ huse hpq =>
    obtain ⟨q, hq, -⟩ := hr.trains.exists_trained huse
    rw [hpq] at hq
    cases hq
  | retrainEncodeFails cs' pq' done rest entry e _ _ hkmeans' hpq hsplit hdone hcode =>
    obtain ⟨rfl, rfl⟩ := hr.unique hkmeans' hpq
    have hmem : entry ∈ s.live := by
      rw [hsplit]
      exact List.mem_append_right _ List.mem_cons_self
    obtain ⟨code, hok⟩ := hr.encodes entry hmem
    rw [hcode] at hok
    cases hok
  | retrained cs' pq' _ _ hkmeans' hpq hcode =>
    obtain ⟨rfl, rfl⟩ := hr.unique hkmeans' hpq
    rfl

/-- What a successful retraining of a non-empty index leaves. -/
theorem Inv.retrain_ok_iff (h : Inv s) (htrained : s.trained = true) (hlive : s.live_count ≠ 0) :
    call (X := X) .retrain s = .ok (.ok (), t) ↔
      ∃ cs pq, Retrains s cs pq ∧ t = (s.drained cs pq).placeAll s.live := by
  constructor
  · intro hcall
    cases transition_of_call h hcall with
    | retrainEmpty _ hzero => exact absurd hzero hlive
    | retrained cs pq _ _ hkmeans hpq hcode => exact ⟨cs, pq, ⟨hkmeans, hpq, hcode⟩, rfl⟩
  · rintro ⟨cs, pq, hr, rfl⟩
    exact h.retrain_of_retrains htrained hlive hr

/-- A retraining of a non-empty index succeeds when the index is retrainable. -/
theorem Inv.retrain_returns_ok_iff (h : Inv s) (htrained : s.trained = true)
    (hlive : s.live_count ≠ 0) :
    (∃ t, call (X := X) .retrain s = .ok (.ok (), t)) ↔ s.Retrainable := by
  rw [h.retrainable_iff htrained hlive]
  constructor
  · rintro ⟨t, hcall⟩
    obtain ⟨cs, pq, hr, -⟩ := (h.retrain_ok_iff htrained hlive).1 hcall
    exact ⟨cs, pq, hr⟩
  · rintro ⟨cs, pq, hr⟩
    exact ⟨_, h.retrain_of_retrains htrained hlive hr⟩

/-! ## What a failed retraining loses -/

/-- A retraining of a trained index that fails leaves the first items only, and not all of them:
those that the reassign loop had placed. -/
theorem Transition.items_of_retrain_error {e : IqdbError}
    (h : Transition s .retrain (.error e) t) (hs : Inv s) (htrained : s.trained = true) :
    ∃ n, n < s.live_count ∧ t.items = s.items.take n := by
  have hdrained : ∀ cs, (s.drained cs s.pq).items = s.items.take 0 := by
    intro cs
    unfold IvfIndex.items IvfIndex.live
    rw [IvfIndex.drained_entries]
    rfl
  cases h with
  | retrainUntrained hfalse =>
    rw [htrained] at hfalse
    cases hfalse
  | retrainKmeansFails _ _ hlive => exact ⟨0, Nat.pos_of_ne_zero hlive, hdrained _⟩
  | retrainPqFails cs _ _ hlive => exact ⟨0, Nat.pos_of_ne_zero hlive, hdrained cs⟩
  | retrainEncodeFails cs pq done rest entry _ _ hlive hkmeans hpq hsplit hdone hcode =>
    have hsub : done.Sublist s.live := by
      rw [hsplit]
      exact List.sublist_append_left _ _
    have hlen : done.length < s.live.length := by
      rw [hsplit, List.length_append, List.length_cons]
      omega
    -- The entries before the one that failed are back, the others are lost.
    refine ⟨done.length, by rwa [hs.length_live] at hlen, ?_⟩
    have hlive := hs.live_placeAll htrained (hs.centroids_of_recluster hkmeans) hpq hsub hdone
    unfold IvfIndex.items
    rw [hlive, hsplit, List.map_map, List.map_append, ← List.length_map (f := (·.item)),
      List.take_left]
    rfl

/-- A retraining of a trained index leaves the index as it was when it fails, if and only if the
index is empty or retrainable: otherwise it fails and items are lost. -/
theorem retrain_error_keeps_state_iff (hs : Reachable s) (htrained : s.trained = true) :
    (∀ e t, call (X := X) .retrain s = .ok (.error e, t) → t = s) ↔
      s.live_count = 0 ∨ s.Retrainable := by
  have h := hs.inv
  constructor
  · intro hkeeps
    by_cases hlive : s.live_count = 0
    · exact .inl hlive
    obtain ⟨r, t, hcall, htransition⟩ := call_transition h (.retrain : Op X)
    cases r with
    | ok u => exact .inr ((h.retrain_returns_ok_iff htrained hlive).1 ⟨t, hcall⟩)
    | error e =>
      -- The items that are left are fewer than those that were there.
      obtain ⟨n, hn, hitems⟩ := htransition.items_of_retrain_error h htrained
      rw [hkeeps e t hcall] at hitems
      have hlen := congrArg List.length hitems
      rw [List.length_take, h.length_items] at hlen
      omega
  · intro hcond e t hcall
    -- Under the condition the call does not return an error.
    rcases hcond with hzero | hretrainable
    · have htransition := transition_of_call h hcall
      obtain ⟨n, hn, -⟩ := htransition.items_of_retrain_error h htrained
      omega
    · by_cases hzero : s.live_count = 0
      · obtain ⟨n, hn, -⟩ := (transition_of_call h hcall).items_of_retrain_error h htrained
        omega
      · obtain ⟨t', hok⟩ := (h.retrain_returns_ok_iff htrained hzero).2 hretrainable
        rw [hok] at hcall
        cases hcall

/-- The index with two items and two clusters is retrainable. On the IVF-PQ index with two items the
cap leaves the quantizer one vector, so a retraining fails and does not leave the index alone. -/
theorem flatState_kept_pqState_lost :
    (∀ e t, call .retrain flatState = .ok (.error e, t) → t = flatState) ∧
      ¬ ∀ e t, call .retrain pqState = .ok (.error e, t) → t = pqState := by
  constructor
  · apply (retrain_error_keeps_state_iff flatState_reachable (by decide +kernel)).2
    have hflat : flatState.cfg.use_pq = false := by decide +kernel
    refine .inr ⟨by decide +kernel, fun huse => ?_⟩
    rw [hflat] at huse
    cases huse
  · intro hkeeps
    have hrefuses : (trainPq crates pqState.cfg pqState.sample).toOption = none := by
      decide +kernel
    rcases (retrain_error_keeps_state_iff pqState_reachable (by decide +kernel)).1 hkeeps with
      hzero | ⟨-, htrains⟩
    · exact absurd hzero (by decide +kernel)
    · obtain ⟨pq, hpq, -⟩ := htrains (by decide +kernel)
      rw [hpq] at hrefuses
      cases hrefuses

/-- The two-cluster index with one item. -/
def oneItem : IvfIndex crates := flatIndex.after [.train twoVectors, .insert 3 [1] none]

/-- The index with one item is reachable. -/
theorem oneItem_reachable : Reachable oneItem := (Reachable.new flatIndex_new).after _

/-- On an index with two clusters and one item, a retraining fails and the item is gone. -/
theorem retrain_error_loses_item : Reachable oneItem ∧ oneItem.trained = true ∧
    ¬ ∀ e t, call .retrain oneItem = .ok (.error e, t) → t = oneItem := by
  refine ⟨oneItem_reachable, by decide +kernel, ?_⟩
  intro hkeeps
  have hrun : (match call .retrain oneItem with
      | .ok (.error e, t) => some (e, t.live_count)
      | _ => none) =
      some (.invalidConfig "IvfIndex::train requires sample.len() >= n_clusters", 0) := by
    decide +kernel
  have hone : oneItem.live_count = 1 := by decide +kernel
  split at hrun
  · next e t hcall =>
    obtain ⟨-, hzero⟩ := Prod.mk.inj (Option.some.inj hrun)
    rw [hkeeps e t hcall, hone] at hzero
    cases hzero
  · cases hrun

end IqdbIvf
