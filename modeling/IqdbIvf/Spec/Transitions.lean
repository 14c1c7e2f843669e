import IqdbIvf.Spec.Reassign

/-!
# The transitions of the index

From a state with the invariant every call ends in one of the transitions (`call_transition`), and
every transition keeps the invariant (`Transition.inv`). Together they give the invariant of every
reachable state, after any calls and at any of their exits.
-/

set_option linter.unusedSectionVars false

namespace IqdbIvf

open Outcome Buckets

variable {F32 : Type} [Arith F32] {X : Crates F32} {s t : IvfIndex X}

/-! ## Every call -/

/-- A call from a state with the invariant ends in one of the transitions, and does not panic. -/
theorem call_transition (h : Inv s) (op : Op X) :
    ∃ r t, call op s = .ok (r, t) ∧ Transition s op r t := by
  cases op with
  | train sample => exact train_transition h sample
  | insert id v m => exact insert_transition h id v m
  | delete id => exact delete_transition h id
  | setNProbes n =>
    unfold call Op.method
    by_cases hzero : n = 0
    · subst hzero
      exact ⟨_, _, Method.run_of_error rfl, .setNProbesZero⟩
    · by_cases hmany : n > s.cfg.n_clusters
      · refine ⟨_, _, Method.run_of_error ?_, .setNProbesTooMany n hmany⟩
        unfold IvfIndex.setNProbes
        simp only [Method.get_bind, hzero, if_false, hmany, if_true, Method.throw_apply]
      · refine ⟨_, _, Method.run_of_ok ?_,
          .nProbesSet n (Nat.pos_of_ne_zero hzero) (Nat.le_of_not_lt hmany)⟩
        unfold IvfIndex.setNProbes
        simp only [Method.get_bind, hzero, if_false, hmany, Method.set_apply]
  | setPqRefineFactor factor => exact ⟨_, _, Method.run_of_ok rfl, .pqRefineFactorSet factor⟩
  | retrain => exact retrain_transition h

/-- The result of a call from a state with the invariant is that of a transition. -/
theorem transition_of_call (h : Inv s) {op : Op X} {r : Except IqdbError Unit}
    (hcall : call op s = .ok (r, t)) : Transition s op r t := by
  obtain ⟨r', t', hcall', htransition⟩ := call_transition h op
  obtain ⟨rfl, rfl⟩ : r' = r ∧ t' = t := by
    rw [hcall'] at hcall
    simpa using hcall
  exact htransition

/-! ## The invariant -/

/-- Some live entries, placed under a new model. -/
theorem Inv.placeAll_drained (h : Inv s) (htrained : s.trained = true) {cs : List (List F32)}
    (hcs : Centroids s.dim s.cfg.n_clusters cs) {pq : Option X.ProductQuantizer}
    (hpq : TrainsPq s.cfg s.sample s.pq pq) {done : List (InvertedListEntry X)}
    (hsub : done.Sublist s.live) (hcode : ∀ x ∈ done, (s.drained cs pq).Encodes x.vector) :
    Inv ((s.drained cs pq).placeAll done) ∧
      ((s.drained cs pq).placeAll done).entries.Perm (done.map (s.drained cs pq).recode) := by
  have hdrained : Inv (s.drained cs pq) :=
    h.drained htrained hcs (hpq.isSome (h.pq_eq_none_iff htrained).2)
  have hnil := IvfIndex.drained_entries (s := s) cs pq
  have hids : ((done ++ (s.drained cs pq).entries).map (·.id)).Nodup := by
    rw [hnil, List.append_nil]
    exact ((hsub.map _).nodup (((s.live_perm.map _).nodup_iff).2 h.ids_nodup))
  have hseqs : ((done ++ (s.drained cs pq).entries).map (·.seq)).Nodup := by
    rw [hnil, List.append_nil]
    exact ((hsub.map _).nodup (((s.live_perm.map _).nodup_iff).2 h.seqs_nodup))
  have hplaced := hdrained.placeAll htrained (fun x hx => h.live_dim (hsub.subset hx)) hcode hids
    hseqs fun x hx => h.seq_lt x (s.live_perm.mem_iff.1 (hsub.subset hx))
  rw [hnil, List.append_nil] at hplaced
  exact hplaced

/-- Every transition keeps the invariant. -/
theorem Transition.inv {op : Op X} {r : Except IqdbError Unit} (h : Transition s op r t)
    (hs : Inv s) : Inv t := by
  cases h with
  | trainPqFails sample cs e htrained hkmeans huse hpq =>
    have hfalse : ¬ s.trained = true := by
      rw [htrained]
      exact Bool.false_ne_true
    exact { hs with
      centroids := fun htrue => absurd htrue hfalse
      placed := fun c e he => absurd he (hs.not_holds htrained c e) }
  | trained sample cs pq htrained hkmeans hpq =>
    exact { hs with
      centroids := fun _ => centroids_of_trainKmeans hs.valid.one_le_n_clusters sample.2
        (fun _ => hs.valid.one_le_sample) hkmeans
      pq_isSome := fun _ => hpq.isSome fun _ => (hs.untrained htrained).2
      untrained := fun htrue => absurd htrue.symm Bool.false_ne_true
      placed := fun c e he => absurd he (hs.not_holds htrained c e) }
  | insertEncodeFails id v m e htrained hdim hid hseq hcode => exact hs.bumpSeq hseq
  | inserted id v m code htrained hdim hid hseq hcode =>
    have hbump := hs.bumpSeq hseq
    have hcluster := ((hs.centroids htrained).nearest_spec hs.valid.one_le_n_clusters hdim).1
    have hplaced : Placed s.bumpSeq (nearest s.centroids v) ⟨id, v, code, m, s.next_seq⟩ :=
      ⟨hdim, hcluster, hcode⟩
    -- The stamp is fresh because every stamp in the lists is below the counter.
    have hfresh : s.next_seq ∉ s.bumpSeq.entries.map (·.seq) := by
      intro hmem
      obtain ⟨e, he, heq⟩ := List.mem_map.1 hmem
      have hlt := hs.seq_lt e he
      omega
    exact hbump.addEntry htrained hplaced hid hfresh (Nat.lt_succ_self _)
  | deleted e c pos old list hold hpos hlist =>
    exact (hs.removeEntry hold (perm_of_swapRemove hpos hlist)).1
  | nProbesSet n hpos hn =>
    have hvalid := hs.valid
    exact hs.withCfg ⟨hpos, hn, hvalid.one_le_sample, hvalid.subvectors⟩ rfl rfl rfl
  | pqRefineFactorSet factor =>
    have hvalid := hs.valid
    exact hs.withCfg ⟨hvalid.one_le_n_probes, hvalid.n_probes_le, hvalid.one_le_sample,
      hvalid.subvectors⟩ rfl rfl rfl
  | retrainKmeansFails e htrained hlive hkmeans =>
    exact hs.drained htrained (hs.centroids htrained) (hs.pq_isSome htrained)
  | retrainPqFails cs e htrained hlive hkmeans huse hpq =>
    exact hs.drained htrained (hs.centroids_of_recluster hkmeans) (hs.pq_isSome htrained)
  | retrainEncodeFails cs pq done rest entry e htrained hlive hkmeans hpq hsplit hdone hcode =>
    have hsub : done.Sublist s.live := by
      rw [hsplit]
      exact List.sublist_append_left _ _
    exact (hs.placeAll_drained htrained (hs.centroids_of_recluster hkmeans) hpq hsub hdone).1
  | retrained cs pq htrained hlive hkmeans hpq hcode =>
    exact (hs.placeAll_drained htrained (hs.centroids_of_recluster hkmeans) hpq
      (List.Sublist.refl _) hcode).1
  | _ => exact hs

/-- Every reachable state has the invariant. -/
theorem Reachable.inv (h : Reachable s) : Inv s :=
  h.induction (fun _ _ _ _ hnew => Inv.new hnew)
    fun _ _ _ _ hs hcall => (transition_of_call hs hcall).inv hs

/-! ## Sequences of calls -/

/-- Transitions one after the other, between states with the invariant. -/
inductive Transitions :
    IvfIndex X → List (Op X) → List (Except IqdbError Unit) → IvfIndex X → Prop
  | nil {s : IvfIndex X} (hs : Inv s) : Transitions s [] [] s
  | cons {s s' t : IvfIndex X} {op : Op X} {ops : List (Op X)} {r : Except IqdbError Unit}
    {rs : List (Except IqdbError Unit)} (hs : Inv s) (htransition : Transition s op r s')
    (hrest : Transitions s' ops rs t) : Transitions s (op :: ops) (r :: rs) t

/-- A sequence of calls from a state with the invariant is one of transitions. -/
theorem transitions_of_calls (h : Inv s) {ops : List (Op X)} {rs : List (Except IqdbError Unit)}
    (hcalls : calls ops s = .ok (rs, t)) : Transitions s ops rs t := by
  induction ops generalizing s rs with
  | nil =>
    obtain ⟨rfl, rfl⟩ : [] = rs ∧ s = t := by simpa [calls] using hcalls
    exact .nil h
  | cons op ops ih =>
    obtain ⟨r, s', rs', hcall, hrest, rfl⟩ := calls_cons_eq_ok hcalls
    have htransition := transition_of_call h hcall
    exact .cons h htransition (ih (htransition.inv h) hrest)

/-- A sequence of transitions ends in a state with the invariant. -/
theorem Transitions.inv {ops : List (Op X)} {rs : List (Except IqdbError Unit)}
    (h : Transitions s ops rs t) : Inv t := by
  induction h with
  | nil hs => exact hs
  | cons _ _ _ ih => exact ih

/-- A history of a state with the invariant does not panic, and ends in a state with it. -/
theorem Inv.calls_ok (h : Inv s) (ops : List (Op X)) :
    ∃ rs t, calls ops s = .ok (rs, t) ∧ Inv t := by
  induction ops generalizing s with
  | nil => exact ⟨[], s, rfl, h⟩
  | cons op ops ih =>
    obtain ⟨r, s', hcall, htransition⟩ := call_transition h op
    obtain ⟨rs, t, hcalls, ht⟩ := ih (htransition.inv h)
    refine ⟨r :: rs, t, ?_, ht⟩
    rw [calls, hcall]
    simp only [ok_bind, hcalls]
    rfl

end IqdbIvf
