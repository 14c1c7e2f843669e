import IqdbIvf.Spec.Exits

/-!
# The reassign loop

The last stage of `retrain` places the entries of the snapshot one after the other, and stops at the
first one that the new quantizer does not encode. `retrain_transition` goes through the stages
before it: up to them `retrain` only empties the index.
-/

set_option linter.unusedSectionVars false

namespace IqdbIvf

open Outcome Buckets

variable {F32 : Type} [Arith F32] {X : Crates F32} {s t : IvfIndex X}

/-! ## The loop -/

section Reassign

variable {e : InvertedListEntry X} {es : List (InvertedListEntry X)}

/-- What the reassign loop relies on: a list and a centroid per cluster. -/
structure Ready (s : IvfIndex X) : Prop where
  pos : 1 ≤ s.inverted_lists.length
  centroids : Centroids s.dim s.inverted_lists.length s.centroids

/-- Placing an entry keeps what the loop relies on. -/
theorem Ready.place (h : Ready s) (e : InvertedListEntry X) : Ready (s.place e) := by
  have hlen : (s.place e).inverted_lists.length = s.inverted_lists.length :=
    List.length_modify _ _ _
  constructor
  · rw [hlen]
    exact h.pos
  · rw [hlen]
    exact h.centroids

/-- The body of the loop at an entry that is encoded. -/
theorem Ready.reassign_of_encodes (h : Ready s) (hdim : e.vector.length = s.dim)
    (hcode : s.Encodes e.vector) (hold : s.pq = none → e.pq_code = none) :
    IvfIndex.reassign e s = .ok () (s.place e) := by
  obtain ⟨hcluster, hlt⟩ := h.centroids.nearest_spec h.pos hdim
  have hlist := List.getElem?_eq_getElem hlt
  have hentry : s.withCode e (s.codeOf e.vector) = s.recode e := by
    unfold IvfIndex.withCode
    cases hpq : s.pq with
    | some pq => rfl
    | none =>
      -- In IVF-Flat mode the entry is left as it is, and so has no code.
      have hnone : s.codeOf e.vector = e.pq_code := by
        unfold IvfIndex.codeOf IvfIndex.encode
        rw [hold hpq, hpq]
        rfl
      unfold IvfIndex.recode
      rw [hnone]
  let counted : IvfIndex X := { s with
    id_to_cluster := s.id_to_cluster.insert e.id (nearest s.centroids e.vector) }
  unfold IvfIndex.reassign
  simp only [Method.get_bind, hcluster, Method.liftM_checked_ok, pure_bind, hcode.eq_ok,
    Method.liftM_result_ok, Method.modify_bind, hentry]
  exact Method.bind_of_ok (pushEntry_apply (s := counted) hlist _)

/-- The body of the loop at an entry that is not. -/
theorem Ready.reassign_of_error (h : Ready s) (hdim : e.vector.length = s.dim) {err : IqdbError}
    (hcode : s.encode e.vector = .error err) :
    IvfIndex.reassign e s = .error (.err err) s := by
  have hcluster := (h.centroids.nearest_spec h.pos hdim).1
  unfold IvfIndex.reassign
  simp only [Method.get_bind, hcluster, Method.liftM_checked_ok, pure_bind, hcode,
    Method.liftM_result_error, Method.throw_bind, Method.throw_apply]

/-- Placing a list of entries keeps what the loop relies on. -/
theorem Ready.placeAll (h : Ready s) (es : List (InvertedListEntry X)) : Ready (s.placeAll es) := by
  induction es generalizing s with
  | nil => exact h
  | cons e es ih => exact ih (h.place e)

/-- The loop over entries that are all encoded, followed by the rest of a computation. -/
theorem Ready.reassign_append (h : Ready s) (hdim : ∀ x ∈ es, x.vector.length = s.dim)
    (hcode : ∀ x ∈ es, s.Encodes x.vector) (hold : s.pq = none → ∀ x ∈ es, x.pq_code = none)
    (rest : List (InvertedListEntry X)) :
    (es ++ rest).forM IvfIndex.reassign s = rest.forM IvfIndex.reassign (s.placeAll es) := by
  induction es generalizing s with
  | nil => rfl
  | cons e es ih =>
    have hstep := h.reassign_of_encodes (hdim e List.mem_cons_self) (hcode e List.mem_cons_self)
      fun hpq => hold hpq e List.mem_cons_self
    have htail := ih (h.place e) (fun x hx => hdim x (List.mem_cons_of_mem e hx))
      (fun x hx => hcode x (List.mem_cons_of_mem e hx))
      (fun hpq x hx => hold hpq x (List.mem_cons_of_mem e hx))
    calc ((e :: es) ++ rest).forM IvfIndex.reassign s
        = (es ++ rest).forM IvfIndex.reassign (s.place e) := Method.bind_of_ok hstep
      _ = rest.forM IvfIndex.reassign (s.placeAll (e :: es)) := htail

end Reassign

/-! ## Retraining -/

/-- Up to its training stages, `retrain` only empties the lists. -/
theorem Inv.retrain_eq (h : Inv s) (htrained : s.trained = true) (hlive : s.live_count ≠ 0) :
    IvfIndex.retrain s = (do
      let centroids ← s.recluster
      debugAssert (centroids.length == s.cfg.n_clusters)
      modify fun s => { s with centroids := centroids }
      pqStage s.cfg s.sample (s.live.forM IvfIndex.reassign) : Method X Unit)
        (s.drained s.centroids s.pq) := by
  obtain ⟨rng, hsub, -, -⟩ := h.exists_subsample
  have hempty : ((s.inverted_lists.map fun _ => ([] : List (InvertedListEntry X))).all
      List.isEmpty) = true := by simp
  have hflatten : IvfIndex.sortBySeq s.inverted_lists.flatten = s.live := rfl
  have hgate : (!s.trained) = false := by
    rw [htrained]
    rfl
  unfold IvfIndex.retrain
  simp only [Method.get_bind, hgate, Bool.false_eq_true, if_false, hlive,
    Method.set_bind, hempty, debugAssert_true, Method.liftM_checked_ok, pure_bind,
    Method.modify_bind, hflatten, hsub]
  rfl

/-- An emptied index with a model of the right shape is ready for the loop. -/
theorem Inv.ready_drained (h : Inv s) {cs : List (List F32)}
    (hcs : Centroids s.dim s.cfg.n_clusters cs) (pq : Option X.ProductQuantizer) :
    Ready (s.drained cs pq) := by
  have hlen : (s.drained cs pq).inverted_lists.length = s.cfg.n_clusters :=
    (List.length_map _).trans h.lists_length
  constructor
  · rw [hlen]
    exact h.valid.one_le_n_clusters
  · rw [hlen]
    exact hcs

/-- The loop over some of the live entries, under a new model of the right shape. -/
theorem Inv.reassign_loop (h : Inv s) {cs : List (List F32)}
    (hcs : Centroids s.dim s.cfg.n_clusters cs) {pq : Option X.ProductQuantizer}
    (hpq : TrainsPq s.cfg s.sample s.pq pq) {done : List (InvertedListEntry X)}
    (hdone : ∀ x ∈ done, x ∈ s.live ∧ (s.drained cs pq).Encodes x.vector)
    (rest : List (InvertedListEntry X)) :
    (done ++ rest).forM IvfIndex.reassign (s.drained cs pq) =
      rest.forM IvfIndex.reassign ((s.drained cs pq).placeAll done) := by
  -- Without a new quantizer the index is in IVF-Flat mode, and its entries have no codes.
  have hold : pq = none → ∀ x ∈ done, x.pq_code = none := by
    intro hnone x hx
    rcases hpq with ⟨-, q, -, hsome⟩ | ⟨-, hsame⟩
    · rw [hnone] at hsome
      cases hsome
    · exact h.pq_code_eq_none (hsame.symm.trans hnone) (s.live_perm.mem_iff.1 (hdone x hx).1)
  exact (h.ready_drained hcs pq).reassign_append (fun x hx => h.live_dim (hdone x hx).1)
    (fun x hx => (hdone x hx).2) hold rest

/-- The loop over all live entries: it places them all, or stops at the first one that is not
encoded. -/
theorem Inv.reassign_live (h : Inv s) {cs : List (List F32)}
    (hcs : Centroids s.dim s.cfg.n_clusters cs) {pq : Option X.ProductQuantizer}
    (hpq : TrainsPq s.cfg s.sample s.pq pq) :
    ((∀ x ∈ s.live, (s.drained cs pq).Encodes x.vector) ∧
      s.live.forM IvfIndex.reassign (s.drained cs pq) =
        .ok () ((s.drained cs pq).placeAll s.live)) ∨
    ∃ done entry rest e, s.live = done ++ entry :: rest ∧
      (∀ x ∈ done, (s.drained cs pq).Encodes x.vector) ∧
      (s.drained cs pq).encode entry.vector = .error e ∧
      s.live.forM IvfIndex.reassign (s.drained cs pq) =
        .error (.err e) ((s.drained cs pq).placeAll done) := by
  have hencodes : ∀ x : InvertedListEntry X,
      ((s.drained cs pq).encode x.vector).isOk = true → (s.drained cs pq).Encodes x.vector := by
    intro x hx
    unfold IvfIndex.Encodes
    cases hcode : (s.drained cs pq).encode x.vector with
    | error e =>
      rw [hcode] at hx
      cases hx
    | ok code => exact ⟨code, rfl⟩
  -- Look for the first entry that is not encoded; the loop places those before it.
  cases hfind : s.live.find? fun x => !((s.drained cs pq).encode x.vector).isOk with
  | none =>
    have hall : ∀ x ∈ s.live, (s.drained cs pq).Encodes x.vector := fun x hx =>
      hencodes x (by simpa using List.find?_eq_none.1 hfind x hx)
    have hloop := h.reassign_loop hcs hpq (fun x hx => ⟨hx, hall x hx⟩) []
    rw [List.append_nil] at hloop
    exact .inl ⟨hall, hloop⟩
  | some entry =>
    obtain ⟨herr, done, rest, hsplit, hdone⟩ := List.find?_eq_some_iff_append.1 hfind
    have hall : ∀ x ∈ done, (s.drained cs pq).Encodes x.vector := fun x hx =>
      hencodes x (by simpa using hdone x hx)
    have hmem : ∀ x ∈ done, x ∈ s.live := fun x hx => by
      rw [hsplit]
      exact List.mem_append_left _ hx
    have hentry : entry.vector.length = s.dim := by
      apply h.live_dim
      rw [hsplit]
      exact List.mem_append_right _ List.mem_cons_self
    have hloop := h.reassign_loop hcs hpq (fun x hx => ⟨hmem x hx, hall x hx⟩) (entry :: rest)
    rw [← hsplit] at hloop
    cases hcode : (s.drained cs pq).encode entry.vector with
    | ok code =>
      rw [hcode] at herr
      cases herr
    | error e =>
      refine .inr ⟨done, entry, rest, e, hsplit, hall, hcode, ?_⟩
      rw [hloop]
      -- Placing entries has not changed the model, so the entry still fails there.
      have hready := (h.ready_drained hcs pq).placeAll done
      have hframe := IvfIndex.placeAll_eq (s.drained cs pq) done
      have hdim : ((s.drained cs pq).placeAll done).dim = s.dim := by
        rw [hframe]
        rfl
      have hencode : ((s.drained cs pq).placeAll done).encode entry.vector = .error e := by
        rw [← hcode, hframe]
        rfl
      exact Method.bind_of_error (hready.reassign_of_error (hentry.trans hdim.symm) hencode)

/-- The exits of a retraining of a non-empty index whose k-means stage succeeds. -/
theorem Inv.retrain_exits (h : Inv s) (htrained : s.trained = true) (hlive : s.live_count ≠ 0)
    {cs : List (List F32)} (hok : s.recluster = .ok cs)
    (hcs : Centroids s.dim s.cfg.n_clusters cs) :
    ∃ r t, IvfIndex.retrain.run s = .ok (r, t) ∧ Transition s .retrain r t := by
  have hlen : (cs.length == s.cfg.n_clusters) = true := beq_iff_eq.2 hcs.length_eq
  have heq : IvfIndex.retrain s =
      pqStage s.cfg s.sample (s.live.forM IvfIndex.reassign) (s.drained cs s.pq) := by
    simp only [h.retrain_eq htrained hlive, hok, Method.liftM_fallible_ok, pure_bind, hlen,
      debugAssert_true, Method.liftM_checked_ok, Method.modify_bind]
    rfl
  rcases pqStage_cases s.cfg s.sample (s.live.forM IvfIndex.reassign) (s.drained cs s.pq) with
    ⟨e, huse, hpq, hrun⟩ | ⟨pq, hpq, hrun⟩
  · exact ⟨_, _, Method.run_of_error (heq.trans hrun),
      .retrainPqFails cs e htrained hlive hok huse hpq⟩
  -- The model is complete, and the loop runs under it.
  have hrun : IvfIndex.retrain s = s.live.forM IvfIndex.reassign (s.drained cs pq) :=
    heq.trans hrun
  rcases h.reassign_live hcs hpq with
    ⟨hall, hloop⟩ | ⟨done, entry, rest, e, hsplit, hdone, hcode, hloop⟩
  · exact ⟨_, _, Method.run_of_ok (hrun.trans hloop),
      .retrained cs pq htrained hlive hok hpq hall⟩
  · exact ⟨_, _, Method.run_of_error (hrun.trans hloop),
      .retrainEncodeFails cs pq done rest entry e htrained hlive hok hpq hsplit hdone hcode⟩

/-- The exits of `retrain`. -/
theorem retrain_transition (h : Inv s) :
    ∃ r t, call (X := X) .retrain s = .ok (r, t) ∧ Transition s .retrain r t := by
  unfold call Op.method
  cases htrained : s.trained with
  | false =>
    refine ⟨_, _, Method.run_of_error ?_, .retrainUntrained htrained⟩
    unfold IvfIndex.retrain
    simp only [Method.get_bind, htrained, Bool.not_false, if_true]
    rfl
  | true =>
    by_cases hlive : s.live_count = 0
    · refine ⟨_, _, Method.run_of_ok ?_, .retrainEmpty htrained hlive⟩
      have hgate : (!s.trained) = false := by
        rw [htrained]
        rfl
      unfold IvfIndex.retrain
      simp only [Method.get_bind, hgate, Bool.false_eq_true, if_false, hlive, if_true]
      rfl
    rcases h.recluster_cases with ⟨e, hpre, herr⟩ | ⟨-, cs, hok, hcs⟩
    · refine ⟨_, _, Method.run_of_error ?_, .retrainKmeansFails e htrained hlive hpre⟩
      simp only [h.retrain_eq htrained hlive, herr, Method.liftM_fallible_error,
        Method.throw_bind, Method.throw_apply]
    · exact h.retrain_exits htrained hlive hok hcs

end IqdbIvf
