import Mathlib.Algebra.Order.BigOperators.Group.List
import IqdbIvf.Spec.Abstraction

/-!
# Failed calls leave no trace

A call that returns an error, other than a retraining, changes nothing that a later call can show:
with these calls left out, the remaining ones return what they returned, and the index ends in a
state that nobody can tell from the other (`failed_calls_leave_no_trace`). The stamp of a failed
insert is lost and the centroids of a failed training stay behind, but neither is ever read.
-/

set_option linter.unusedSectionVars false

namespace IqdbIvf

open Outcome Rational

variable {F32 : Type} [Arith F32] {X : Crates F32} {s t : IvfIndex X} {v w : View X}

/-! ## Views up to what can be observed -/

namespace View

/-- The view without the centroids that a failed training has left. -/
def observed (v : View X) : View X := if v.trained = true then v else { v with centroids := [] }

/-- A trained view is observed as it is. -/
theorem observed_of_trained (h : v.trained = true) : v.observed = v := if_pos h

/-- The centroids of an untrained view are not observed. -/
theorem observed_of_untrained (h : v.trained = false) :
    v.observed = { v with centroids := [] } := by
  unfold observed
  rw [if_neg (Bool.eq_false_iff.1 h)]

/-- Other centroids of an untrained view are not observed either. -/
theorem observed_centroids (h : v.trained = false) (cs : List (List F32)) :
    View.observed { v with centroids := cs } = v.observed := by
  have hcs : View.observed { v with centroids := cs } = { v with centroids := [] } := if_neg
    (Bool.eq_false_iff.1 h)
  rw [hcs, observed_of_untrained h]

/-- Views that are observed alike are equal, or both untrained and equal up to the centroids. -/
theorem observed_cases (h : v.observed = w.observed) :
    v = w ∨ v.trained = false ∧ v = { w with centroids := v.centroids } := by
  have htrained : ∀ u : View X, u.observed.trained = u.trained := by
    intro u
    unfold observed
    split_ifs
    · rfl
    · rfl
  have heq : v.trained = w.trained := by rw [← htrained v, h, htrained w]
  cases hv : v.trained with
  | true =>
    rw [observed_of_trained hv, observed_of_trained (heq.symm.trans hv)] at h
    exact .inl h
  | false =>
    rw [observed_of_untrained hv, observed_of_untrained (heq.symm.trans hv)] at h
    refine .inr ⟨rfl, ?_⟩
    calc v = { ({ v with centroids := [] } : View X) with centroids := v.centroids } := rfl
      _ = { ({ w with centroids := [] } : View X) with centroids := v.centroids } := by rw [h]
      _ = { w with centroids := v.centroids } := rfl

/-- A call of an untrained view does not read the centroids. -/
theorem call_centroids (h : v.trained = false) (cs : List (List F32)) (op : Op X) :
    (View.call { v with centroids := cs } op).1 = (v.call op).1 ∧
      (View.call { v with centroids := cs } op).2.observed = (v.call op).2.observed := by
  have hset : ∀ cfg, View.observed { v with centroids := cs, cfg := cfg } =
      View.observed { v with cfg := cfg } := by
    intro cfg
    have hcfg : ({ v with cfg := cfg } : View X).trained = false := h
    exact observed_centroids hcfg cs
  have hnever : ¬ v.trained = true := Bool.eq_false_iff.1 h
  cases op with
  | train sample =>
    show (View.train { v with centroids := cs } sample.1).1 = (v.train sample.1).1 ∧
      (View.train { v with centroids := cs } sample.1).2.observed = (v.train sample.1).2.observed
    unfold View.train
    rw [if_neg hnever, if_neg hnever]
    cases hclusters : clusterings v.dim v.cfg.n_clusters v.cfg.seed sample.1
      v.cfg.training_sample_size with
    | error e => exact ⟨rfl, hset v.cfg⟩
    | ok centroids =>
      have hbooks : View.codebooks { v with centroids := cs } sample.1 = v.codebooks sample.1 := rfl
      dsimp only
      rw [hbooks]
      cases v.codebooks sample.1 with
      | error e => exact ⟨rfl, rfl⟩
      | ok pq => exact ⟨rfl, rfl⟩
  | insert id vector metadata =>
    show (View.insert { v with centroids := cs } id vector metadata).1 =
        (v.insert id vector metadata).1 ∧
      (View.insert { v with centroids := cs } id vector metadata).2.observed =
        (v.insert id vector metadata).2.observed
    unfold View.insert
    rw [if_pos h, if_pos h]
    exact ⟨rfl, hset v.cfg⟩
  | delete id =>
    show (View.delete { v with centroids := cs } id).1 = (v.delete id).1 ∧
      (View.delete { v with centroids := cs } id).2.observed = (v.delete id).2.observed
    unfold View.delete
    dsimp only
    split_ifs
    · have hitems : ({ v with items := v.items.filter fun item => item.id ≠ id } : View X).trained =
        false := h
      exact ⟨rfl, observed_centroids hitems cs⟩
    · exact ⟨rfl, hset v.cfg⟩
  | setNProbes n =>
    show (View.setNProbes { v with centroids := cs } n).1 = (v.setNProbes n).1 ∧
      (View.setNProbes { v with centroids := cs } n).2.observed = (v.setNProbes n).2.observed
    unfold View.setNProbes
    dsimp only
    split_ifs
    · exact ⟨rfl, hset v.cfg⟩
    · exact ⟨rfl, hset v.cfg⟩
    · exact ⟨rfl, hset _⟩
  | setPqRefineFactor factor => exact ⟨rfl, hset _⟩
  | retrain =>
    show (View.retrain { v with centroids := cs }).1 = v.retrain.1 ∧
      (View.retrain { v with centroids := cs }).2.observed = v.retrain.2.observed
    unfold View.retrain
    rw [if_pos h, if_pos h]
    exact ⟨rfl, hset v.cfg⟩

/-- Views that are observed alike answer alike, and stay so. -/
theorem call_observed (h : v.observed = w.observed) (op : Op X) :
    (v.call op).1 = (w.call op).1 ∧ (v.call op).2.observed = (w.call op).2.observed := by
  rcases observed_cases h with rfl | ⟨huntrained, heq⟩
  · exact ⟨rfl, rfl⟩
  · have hw : w.trained = false := by
      rw [heq] at huntrained
      exact huntrained
    rw [heq]
    exact call_centroids hw _ op

/-- A failed call other than a retraining changes nothing that is observed. -/
theorem call_of_error {op : Op X} {e : IqdbError} (h : (v.call op).1 = .error e)
    (hop : op ≠ .retrain) : (v.call op).2.observed = v.observed := by
  cases op with
  | train sample =>
    change (v.train sample.1).1 = _ at h
    show (v.train sample.1).2.observed = _
    unfold View.train at h ⊢
    by_cases htrained : v.trained = true
    · rw [if_pos htrained]
    · rw [if_neg htrained] at h ⊢
      cases hclusters : clusterings v.dim v.cfg.n_clusters v.cfg.seed sample.1
        v.cfg.training_sample_size with
      | error e => rfl
      | ok centroids =>
        cases hbooks : v.codebooks sample.1 with
        | error e => exact observed_centroids (Bool.eq_false_iff.2 htrained) centroids
        | ok pq =>
          simp only [hclusters, hbooks] at h
          cases h
  | insert id vector metadata =>
    change (v.insert id vector metadata).1 = _ at h
    show (v.insert id vector metadata).2.observed = _
    unfold View.insert at h ⊢
    split_ifs at h ⊢
    · rfl
    · rfl
    · rfl
    · cases hcode : v.encode vector with
      | error e => rfl
      | ok code =>
        rw [hcode] at h
        cases h
  | delete id =>
    change (v.delete id).1 = _ at h
    show (v.delete id).2.observed = _
    unfold View.delete at h ⊢
    split_ifs at h ⊢
    · rfl
  | setNProbes n =>
    change (v.setNProbes n).1 = _ at h
    show (v.setNProbes n).2.observed = _
    unfold View.setNProbes at h ⊢
    split_ifs at h ⊢
    · rfl
    · rfl
  | setPqRefineFactor factor => cases h
  | retrain => exact absurd rfl hop

end View

/-! ## Histories without their failures -/

/-- An untrained index has no items. -/
theorem Inv.items_of_untrained (h : Inv s) (htrained : s.trained = false) : s.items = [] := by
  rw [← List.length_eq_zero_iff, h.length_items, h.live_count, (h.untrained htrained).1]
  rfl

/-- Two indexes whose views are observed alike cannot be told apart. -/
theorem Inv.indistinguishable (h : Inv s) (ht : Inv t) (hview : s.view.observed = t.view.observed)
    {score : List F32 → List F32 → Option F32} (hscore : ScoresEach X s.metric s.dim score) :
    Indistinguishable s t := by
  rcases View.observed_cases hview with heq | ⟨huntrained, heq⟩
  · have hscore' : ScoresEach X t.metric t.dim score := by
      have hmetric : s.metric = t.metric := congrArg View.metric heq
      have hdim : s.dim = t.dim := congrArg View.dim heq
      rwa [← hmetric, ← hdim]
    exact (h.shows hscore).indistinguishable (ht.shows hscore') (by rw [heq]) (by rw [heq])
      fun query params => by rw [heq]
  · have hidle : s.view.items = [] := h.items_of_untrained huntrained
    have hscore' : ScoresEach X t.metric t.dim score := by
      have hmetric : s.metric = t.metric := congrArg View.metric heq
      have hdim : s.dim = t.dim := congrArg View.dim heq
      rwa [← hmetric, ← hdim]
    have huntrained' : t.view.trained = false := by
      rw [heq] at huntrained
      exact huntrained
    have hidle' : t.view.items = [] := ht.items_of_untrained huntrained'
    have hclusters : s.view.cfg = t.view.cfg := by rw [heq]
    apply (h.shows hscore).indistinguishable (ht.shows hscore')
    · rw [hidle, hidle']
    · unfold View.sizes
      rw [hidle, hidle', hclusters]
      simp
    · intro query params
      unfold View.search
      rw [if_pos huntrained, if_pos huntrained']

/-- The calls that can leave a trace: those that succeed, and the retrainings. -/
def Op.counts : Op X → Except IqdbError Unit → Bool
  | .retrain, _ => true
  | _, r => r.isOk

/-- A call that leaves no trace has failed, and is not a retraining. -/
theorem Op.failed_of_counts {op : Op X} {r : Except IqdbError Unit} (h : op.counts r = false) :
    (∃ e, r = .error e) ∧ op ≠ .retrain := by
  cases r with
  | ok u => cases op <;> cases h
  | error e =>
    refine ⟨⟨e, rfl⟩, ?_⟩
    rintro rfl
    cases h

/-- Some of the calls take no more stamps than all of them. -/
theorem sum_stamps_le {ops ops' : List (Op X)} (h : ops'.Sublist ops) :
    (ops'.map Op.stamps).sum ≤ (ops.map Op.stamps).sum :=
  (h.map Op.stamps).sum_le_sum fun _ _ => Nat.zero_le _

/-- Failed calls leave no trace: a history without the calls that failed, other than its
retrainings, returns what the history returned for the others, and ends in an index that cannot be
told from the one that the whole history ends in. -/
theorem failed_calls_leave_no_trace (hs : Reachable s)
    {score : List F32 → List F32 → Option F32} (hscore : ScoresEach X s.metric s.dim score)
    {ops : List (Op X)} (hseq : s.next_seq + (ops.map Op.stamps).sum < 2^64) :
    ∃ rs t t', calls ops s = .ok (rs, t) ∧
      calls ((Machine.kept Op.counts ops rs).map Prod.fst) s =
        .ok ((Machine.kept Op.counts ops rs).map Prod.snd, t') ∧
      Indistinguishable t t' := by
  have h := hs.inv
  let R : View X → View X → Prop := fun v w => v.observed = w.observed
  have hkeep : ∀ v w op, R v w → op.counts (v.call op).1 = true →
      (w.call op).1 = (v.call op).1 ∧ R (v.call op).2 (w.call op).2 := by
    intro v w op hvw _
    obtain ⟨hanswer, hnext⟩ := View.call_observed hvw op
    exact ⟨hanswer.symm, hnext⟩
  have hdrop : ∀ v w op, R v w → op.counts (v.call op).1 = false → R (v.call op).2 w := by
    intro v w op hvw hfailed
    obtain ⟨⟨e, herr⟩, hop⟩ := Op.failed_of_counts hfailed
    exact (View.call_of_error herr hop).trans hvw
  have hstart : R s.view s.view := rfl
  obtain ⟨hanswers, hlast⟩ := Machine.run_kept hkeep hdrop hstart ops
  obtain ⟨t, hcalls, ht, hview⟩ := h.view_calls hseq
  -- The history without the failures needs no more stamps.
  have hsub : ((Machine.kept Op.counts ops (Machine.run View.call s.view ops).1).map
      Prod.fst).Sublist ops := Machine.kept_sublist _ (Machine.length_run _ _ _)
  have hstamps := Nat.add_le_add_left (sum_stamps_le hsub) s.next_seq
  obtain ⟨t', hcalls', ht', hview'⟩ := h.view_calls (Nat.lt_of_le_of_lt hstamps hseq)
  rw [hanswers] at hcalls'
  refine ⟨_, t, t', hcalls, hcalls', ?_⟩
  have hframe := (h.frame_of_calls hcalls).2
  have hscore' : ScoresEach X t.metric t.dim score := by
    rw [hframe.metric, hframe.dim]
    exact hscore
  apply ht.indistinguishable ht' _ hscore'
  rw [hview, hview']
  exact hlast

/-- A history in which every kind of call fails once. -/
def failingCalls : List (Op crates) := [.insert 6 [1] none, .insert 6 [2] none, .train twoVectors,
  .delete 9, .insert 7 [1, 2] none, .setNProbes 0, .delete 6]

/-- The history with and without its failures. -/
theorem failingCalls_leave_no_trace :
    ∃ rs t t', calls failingCalls flatState = .ok (rs, t) ∧
      calls ((Machine.kept Op.counts failingCalls rs).map Prod.fst) flatState =
        .ok ((Machine.kept Op.counts failingCalls rs).map Prod.snd, t') ∧
      Indistinguishable t t' := by
  have hmetric : flatState.metric = .manhattan := by decide +kernel
  have hscore : ScoresEach crates flatState.metric flatState.dim (distance .manhattan) :=
    manhattan_scoresEach hmetric
  exact failed_calls_leave_no_trace flatState_reachable hscore (by decide +kernel)

end IqdbIvf
