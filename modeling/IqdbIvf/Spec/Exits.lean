import IqdbIvf.Spec.Snapshot

/-!
# The exits of the calls

Every way in which a mutating call ends, with its result and the state that it leaves, as one
constructor of `Transition` per exit of the source. From a state with the invariant each of `train`,
`insert` and `delete` ends in one of them, hence without a panic.
-/

set_option linter.unusedSectionVars false

namespace IqdbIvf

open Outcome Buckets

variable {F32 : Type} [Arith F32] {X : Crates F32} {s t : IvfIndex X}

/-- The exits of the mutating calls from the state `s`. -/
inductive Transition (s : IvfIndex X) : Op X → Except IqdbError Unit → IvfIndex X → Prop
  -- `train`: the second training, the pre-checks, the quantizer, success.
  | trainTwice (sample : Slice (List F32)) (htrained : s.trained = true) :
    Transition s (.train sample) (.error (.invalidConfig
      "IvfIndex is already trained; use retrain() to rebuild centroids")) s
  | trainKmeansFails (sample : Slice (List F32)) (e : IqdbError) (htrained : s.trained = false)
    (hkmeans : trainPrechecks s.dim s.cfg.n_clusters sample.1 = .error e) :
    Transition s (.train sample) (.error e) s
  | trainPqFails (sample : Slice (List F32)) (cs : List (List F32)) (e : IqdbError)
    (htrained : s.trained = false)
    (hkmeans : trainKmeans s.dim s.cfg.n_clusters s.cfg.seed sample.1 s.cfg.training_sample_size =
      .ok cs)
    (huse : s.cfg.use_pq = true) (hpq : trainPq X s.cfg sample.1 = .error e) :
    Transition s (.train sample) (.error e) { s with centroids := cs }
  | trained (sample : Slice (List F32)) (cs : List (List F32)) (pq : Option X.ProductQuantizer)
    (htrained : s.trained = false)
    (hkmeans : trainKmeans s.dim s.cfg.n_clusters s.cfg.seed sample.1 s.cfg.training_sample_size =
      .ok cs)
    (hpq : TrainsPq s.cfg sample.1 s.pq pq) :
    Transition s (.train sample) (.ok ()) { s with centroids := cs, pq := pq, trained := true }
  -- `insert`: the checks in their order, a stamp that is burnt, success.
  | insertUntrained (id : X.VectorId) (v : List F32) (m : Option X.Metadata)
    (htrained : s.trained = false) :
    Transition s (.insert id v m) (.error (.invalidConfig "IvfIndex must be trained before use")) s
  | insertWrongDim (id : X.VectorId) (v : List F32) (m : Option X.Metadata)
    (htrained : s.trained = true) (hdim : v.length ≠ s.dim) :
    Transition s (.insert id v m) (.error (.dimensionMismatch s.dim v.length)) s
  | insertDuplicate (id : X.VectorId) (v : List F32) (m : Option X.Metadata)
    (htrained : s.trained = true) (hdim : v.length = s.dim) (hid : id ∈ s.entries.map (·.id)) :
    Transition s (.insert id v m) (.error .duplicate) s
  | insertOverflow (id : X.VectorId) (v : List F32) (m : Option X.Metadata)
    (htrained : s.trained = true) (hdim : v.length = s.dim) (hid : id ∉ s.entries.map (·.id))
    (hseq : ¬ s.next_seq + 1 < 2^64) :
    Transition s (.insert id v m)
      (.error (.invalidConfig "IvfIndex insertion sequence counter overflowed u64")) s
  | insertEncodeFails (id : X.VectorId) (v : List F32) (m : Option X.Metadata) (e : IqdbError)
    (htrained : s.trained = true) (hdim : v.length = s.dim) (hid : id ∉ s.entries.map (·.id))
    (hseq : s.next_seq + 1 < 2^64) (hcode : s.encode v = .error e) :
    Transition s (.insert id v m) (.error e) s.bumpSeq
  | inserted (id : X.VectorId) (v : List F32) (m : Option X.Metadata) (code : Option X.PqCode)
    (htrained : s.trained = true) (hdim : v.length = s.dim) (hid : id ∉ s.entries.map (·.id))
    (hseq : s.next_seq + 1 < 2^64) (hcode : s.encode v = .ok code) :
    Transition s (.insert id v m) (.ok ())
      (s.bumpSeq.addEntry (nearest s.centroids v) ⟨id, v, code, m, s.next_seq⟩)
  -- `delete`: the lookup that misses, and the removal; its second lookup cannot miss.
  | deleteAbsent (id : X.VectorId) (hid : id ∉ s.entries.map (·.id)) :
    Transition s (.delete id) (.error .notFound) s
  | deleted (e : InvertedListEntry X) (c pos : ℕ) (old list : List (InvertedListEntry X))
    (hold : s.inverted_lists[c]? = some old) (hpos : old[pos]? = some e)
    (hlist : IvfIndex.swapRemove old pos = .ok list) :
    Transition s (.delete e.id) (.ok ()) (s.removeEntry c e.id list)
  -- The setters.
  | setNProbesZero :
    Transition s (.setNProbes 0)
      (.error (.invalidConfig "IvfIndex::set_n_probes requires n >= 1")) s
  | setNProbesTooMany (n : ℕ) (hn : s.cfg.n_clusters < n) :
    Transition s (.setNProbes n)
      (.error (.invalidConfig "IvfIndex::set_n_probes requires n <= n_clusters")) s
  | nProbesSet (n : ℕ) (hpos : 1 ≤ n) (hn : n ≤ s.cfg.n_clusters) :
    Transition s (.setNProbes n) (.ok ()) { s with cfg := { s.cfg with n_probes := n } }
  | pqRefineFactorSet (factor : UInt32) :
    Transition s (.setPqRefineFactor factor) (.ok ())
      { s with cfg := { s.cfg with pq_refine_factor := factor } }
  -- `retrain`: from the k-means stage on, the lists have been emptied.
  | retrainUntrained (htrained : s.trained = false) :
    Transition s .retrain
      (.error (.invalidConfig "IvfIndex must be trained before retrain()")) s
  | retrainEmpty (htrained : s.trained = true) (hlive : s.live_count = 0) :
    Transition s .retrain (.ok ()) s
  | retrainKmeansFails (e : IqdbError) (htrained : s.trained = true) (hlive : s.live_count ≠ 0)
    (hkmeans : trainPrechecks s.dim s.cfg.n_clusters s.sample = .error e) :
    Transition s .retrain (.error e) (s.drained s.centroids s.pq)
  | retrainPqFails (cs : List (List F32)) (e : IqdbError) (htrained : s.trained = true)
    (hlive : s.live_count ≠ 0) (hkmeans : s.recluster = .ok cs) (huse : s.cfg.use_pq = true)
    (hpq : trainPq X s.cfg s.sample = .error e) :
    Transition s .retrain (.error e) (s.drained cs s.pq)
  | retrainEncodeFails (cs : List (List F32)) (pq : Option X.ProductQuantizer)
    (done rest : List (InvertedListEntry X)) (entry : InvertedListEntry X) (e : IqdbError)
    (htrained : s.trained = true) (hlive : s.live_count ≠ 0) (hkmeans : s.recluster = .ok cs)
    (hpq : TrainsPq s.cfg s.sample s.pq pq) (hsplit : s.live = done ++ entry :: rest)
    (hdone : ∀ x ∈ done, (s.drained cs pq).Encodes x.vector)
    (hcode : (s.drained cs pq).encode entry.vector = .error e) :
    Transition s .retrain (.error e) ((s.drained cs pq).placeAll done)
  | retrained (cs : List (List F32)) (pq : Option X.ProductQuantizer)
    (htrained : s.trained = true) (hlive : s.live_count ≠ 0) (hkmeans : s.recluster = .ok cs)
    (hpq : TrainsPq s.cfg s.sample s.pq pq)
    (hcode : ∀ x ∈ s.live, (s.drained cs pq).Encodes x.vector) :
    Transition s .retrain (.ok ()) ((s.drained cs pq).placeAll s.live)

/-- What a method that ends with a `Result` does. -/
theorem Method.run_of_ok {α : Type} {m : Method X α} {a : α} (h : m s = .ok a t) :
    m.run s = .ok (.ok a, t) := by
  unfold Method.run
  rw [h]

/-- What a method that ends with an error does. -/
theorem Method.run_of_error {α : Type} {m : Method X α} {e : IqdbError}
    (h : m s = .error (.err e) t) : m.run s = .ok (.error e, t) := by
  unfold Method.run
  rw [h]

/-- The check of a trained index. -/
theorem requireTrained_of_trained (htrained : s.trained = true) : s.requireTrained = .ok () := by
  unfold IvfIndex.requireTrained
  rw [htrained]
  rfl

/-- The check of an untrained index. -/
theorem requireTrained_of_untrained (htrained : s.trained = false) :
    s.requireTrained = .error (.invalidConfig "IvfIndex must be trained before use") := by
  unfold IvfIndex.requireTrained
  rw [htrained]
  rfl

/-! ## `train` -/

/-- The quantizer stage of `train` and `retrain`, followed by the rest of the method. -/
def pqStage (cfg : IvfConfig) (sample : List (List F32)) (rest : Method X Unit) :
    Method X Unit := do
  if cfg.use_pq then
    let pq ← trainPq X cfg sample
    modify fun s => { s with pq := some pq }
  rest

/-- The quantizer stage fails, or the rest runs under the quantizer that it leaves. -/
theorem pqStage_cases (cfg : IvfConfig) (sample : List (List F32)) (rest : Method X Unit)
    (s : IvfIndex X) :
    (∃ e, cfg.use_pq = true ∧ trainPq X cfg sample = .error e ∧
      pqStage cfg sample rest s = .error (.err e) s) ∨
    ∃ pq, TrainsPq cfg sample s.pq pq ∧ pqStage cfg sample rest s = rest { s with pq := pq } := by
  unfold pqStage
  cases huse : cfg.use_pq with
  | false =>
    right
    refine ⟨s.pq, .inr ⟨huse, rfl⟩, ?_⟩
    simp only [Bool.false_eq_true, if_false]
  | true =>
    simp only [if_true]
    cases htrain : trainPq X cfg sample with
    | error e =>
      left
      refine ⟨e, trivial, rfl, ?_⟩
      simp only [Method.liftM_result_error, Method.throw_bind, Method.throw_apply]
    | ok pq =>
      right
      refine ⟨some pq, .inl ⟨huse, pq, htrain, rfl⟩, ?_⟩
      simp only [Method.liftM_result_ok, pure_bind, Method.modify_bind]

/-- The exits of `train`. -/
theorem train_transition (h : Inv s) (sample : Slice (List F32)) :
    ∃ r t, call (.train sample) s = .ok (r, t) ∧ Transition s (.train sample) r t := by
  unfold call Op.method
  cases htrained : s.trained with
  | true =>
    refine ⟨_, _, Method.run_of_error ?_, .trainTwice sample htrained⟩
    unfold IvfIndex.train
    simp only [Method.get_bind, htrained, if_true]
    rfl
  | false =>
    have hcases := trainKmeans_cases s.dim s.cfg.training_sample_size h.valid.one_le_n_clusters
      s.cfg.seed sample.2 fun _ => h.valid.one_le_sample
    rcases hcases with ⟨e, hpre, herr⟩ | ⟨-, cs, hok, hcs⟩
    · refine ⟨_, _, Method.run_of_error ?_, .trainKmeansFails sample e htrained hpre⟩
      unfold IvfIndex.train
      simp only [Method.get_bind, htrained, herr, Method.liftM_fallible_error, Method.throw_bind]
      rfl
    · have hlen : (cs.length == s.cfg.n_clusters) = true := beq_iff_eq.2 hcs.length_eq
      -- The centroids are replaced before the quantizer stage, and stay when it fails.
      have heq : IvfIndex.train sample s = pqStage s.cfg sample.1
          (modify fun s => { s with trained := true }) { s with centroids := cs } := by
        unfold IvfIndex.train pqStage
        simp only [Method.get_bind, htrained, hok, Method.liftM_fallible_ok, pure_bind, hlen,
          debugAssert_true, Method.liftM_checked_ok, Bool.false_eq_true, if_false,
          Method.modify_bind]
      rcases pqStage_cases s.cfg sample.1 (modify fun s => { s with trained := true })
        { s with centroids := cs } with ⟨e, huse, hpq, hrun⟩ | ⟨pq, hpq, hrun⟩
      · exact ⟨_, _, Method.run_of_error (heq.trans hrun),
          .trainPqFails sample cs e htrained hok huse hpq⟩
      · exact ⟨_, _, Method.run_of_ok (heq.trans hrun), .trained sample cs pq htrained hok hpq⟩

/-! ## `insert` -/

/-- Pushing an entry onto one of the lists. -/
theorem pushEntry_apply {c : ℕ} {list : List (InvertedListEntry X)}
    (hc : s.inverted_lists[c]? = some list) (e : InvertedListEntry X) :
    IvfIndex.pushEntry c e s =
      .ok () { s with inverted_lists := s.inverted_lists.modify c fun list => list ++ [e] } := by
  have hlt : c < s.inverted_lists.length := (List.getElem?_eq_some_iff.1 hc).1
  unfold IvfIndex.pushEntry
  simp only [Method.get_bind, index_eq_ok hc, assign_of_lt _ hlt, Method.liftM_checked_ok,
    pure_bind, Method.set_apply]
  rw [List.modify_eq_set_getElem?, hc]
  rfl

/-- The exits of `insert`, in the order of its checks. -/
theorem insert_transition (h : Inv s) (id : X.VectorId) (v : List F32) (m : Option X.Metadata) :
    ∃ r t, call (.insert id v m) s = .ok (r, t) ∧ Transition s (.insert id v m) r t := by
  unfold call Op.method
  cases htrained : s.trained with
  | false =>
    have hreq := requireTrained_of_untrained htrained
    refine ⟨_, _, Method.run_of_error ?_, .insertUntrained id v m htrained⟩
    unfold IvfIndex.insert
    simp only [Method.get_bind, hreq, Method.liftM_result_error, Method.throw_bind,
      Method.throw_apply]
  | true =>
    have hreq := requireTrained_of_trained htrained
    by_cases hdim : v.length = s.dim
    · have hcheck : s.checkDim v.length = .ok () := if_neg (not_not.2 hdim)
      by_cases hid : id ∈ s.id_to_cluster
      · refine ⟨_, _, Method.run_of_error ?_,
          .insertDuplicate id v m htrained hdim ((h.mem_iff id).1 hid)⟩
        unfold IvfIndex.insert
        simp only [Method.get_bind, hreq, hcheck, Method.liftM_result_ok, pure_bind, hid, if_true,
          Method.throw_apply]
      · have hid' : id ∉ s.entries.map (·.id) := fun hmem => hid ((h.mem_iff id).2 hmem)
        by_cases hseq : s.next_seq + 1 < 2^64
        · have hsucc : checkedSucc s.next_seq = some (s.next_seq + 1) := if_pos hseq
          obtain ⟨hcluster, hlt⟩ :=
            (h.centroids htrained).nearest_spec h.valid.one_le_n_clusters hdim
          cases hcode : s.encode v with
          | error e =>
            -- The stamp is taken before the vector is encoded, and is lost.
            refine ⟨_, _, Method.run_of_error ?_,
              .insertEncodeFails id v m e htrained hdim hid' hseq hcode⟩
            unfold IvfIndex.insert
            simp only [Method.get_bind, hreq, hcheck, Method.liftM_result_ok, pure_bind, hid,
              if_false, hsucc, Method.set_bind, hcluster, Method.liftM_checked_ok, hcode,
              Method.liftM_result_error, Method.throw_bind, Method.throw_apply]
            rfl
          | ok code =>
            obtain ⟨list, hlist⟩ := h.exists_list hlt
            refine ⟨_, _, Method.run_of_ok ?_,
              .inserted id v m code htrained hdim hid' hseq hcode⟩
            unfold IvfIndex.insert
            simp only [Method.get_bind, hreq, hcheck, Method.liftM_result_ok, pure_bind, hid,
              if_false, hsucc, Method.set_bind, hcluster, Method.liftM_checked_ok, hcode,
              Method.modify_bind]
            -- The push meets the lists of `s`, after the stamp and the map have changed.
            let counted : IvfIndex X := { s with
              id_to_cluster := s.id_to_cluster.insert id (nearest s.centroids v)
              next_seq := s.next_seq + 1 }
            rw [Method.bind_of_ok (pushEntry_apply (s := counted) hlist _)]
            rfl
        · have hsucc : checkedSucc s.next_seq = none := if_neg hseq
          refine ⟨_, _, Method.run_of_error ?_,
            .insertOverflow id v m htrained hdim hid' hseq⟩
          unfold IvfIndex.insert
          simp only [Method.get_bind, hreq, hcheck, Method.liftM_result_ok, pure_bind, hid,
            if_false, hsucc, Method.throw_apply]
    · have hcheck : s.checkDim v.length = .error (.dimensionMismatch s.dim v.length) := if_pos hdim
      refine ⟨_, _, Method.run_of_error ?_, .insertWrongDim id v m htrained hdim⟩
      unfold IvfIndex.insert
      simp only [Method.get_bind, hreq, hcheck, Method.liftM_result_ok, pure_bind,
        Method.liftM_result_error, Method.throw_bind, Method.throw_apply]

/-! ## `delete` -/

/-- `swap_remove` within the bounds takes one element out. -/
theorem swapRemove_of_lt {α : Type} {xs : List α} {pos : ℕ} (h : pos < xs.length) :
    ∃ ys, IvfIndex.swapRemove xs pos = .ok ys ∧ xs.Perm (xs[pos] :: ys) := by
  rcases List.eq_nil_or_concat' xs with rfl | ⟨init, last, rfl⟩
  · cases h
  have hlast : (init ++ [last]).getLast? = some last := List.getLast?_concat
  refine ⟨((init ++ [last]).set pos last).dropLast, ?_, ?_⟩
  · unfold IvfIndex.swapRemove
    rw [hlast]
    simp only [if_pos h]
  · by_cases hpos : pos < init.length
    · -- The last element moves into the gap.
      have hset : (init ++ [last]).set pos last = init.set pos last ++ [last] :=
        List.set_append_left _ _ hpos
      have hget : (init ++ [last])[pos] = init[pos] := List.getElem_append_left hpos
      rw [hset, List.dropLast_concat, hget]
      have hperm : (init.set pos last).Perm (last :: init.eraseIdx pos) :=
        List.set_perm_cons_eraseIdx hpos last
      calc (init ++ [last]).Perm (last :: init) := List.perm_append_singleton last init
        _ |>.Perm (last :: init[pos] :: init.eraseIdx pos) :=
          (List.getElem_cons_eraseIdx_perm hpos).symm.cons last
        _ |>.Perm (init[pos] :: last :: init.eraseIdx pos) := List.Perm.swap _ _ _
        _ |>.Perm (init[pos] :: init.set pos last) := hperm.symm.cons _
    · -- The removed element is the last one itself.
      have heq : pos = init.length := by
        rw [List.length_append, List.length_singleton] at h
        omega
      subst heq
      simp [List.set_append_right]

/-- What `swap_remove` leaves is the list without the element at the position. -/
theorem perm_of_swapRemove {α : Type} {xs ys : List α} {pos : ℕ} {x : α} (hx : xs[pos]? = some x)
    (h : IvfIndex.swapRemove xs pos = .ok ys) : xs.Perm (x :: ys) := by
  obtain ⟨hpos, rfl⟩ := List.getElem?_eq_some_iff.1 hx
  obtain ⟨zs, hzs, hperm⟩ := swapRemove_of_lt hpos
  rw [hzs] at h
  obtain rfl := Except.ok.inj h
  exact hperm

/-- The exits of `delete`. -/
theorem delete_transition (h : Inv s) (id : X.VectorId) :
    ∃ r t, call (.delete id) s = .ok (r, t) ∧ Transition s (.delete id) r t := by
  unfold call Op.method
  cases hlookup : s.id_to_cluster.lookup id with
  | none =>
    have hid : id ∉ s.entries.map (·.id) := by
      rw [← h.mem_iff, ← Finmap.lookup_isSome, hlookup]
      exact Bool.false_ne_true
    refine ⟨_, _, Method.run_of_error ?_, .deleteAbsent id hid⟩
    unfold IvfIndex.delete
    simp only [Method.get_bind, hlookup, Method.throw_apply]
  | some c =>
    obtain ⟨e, ⟨old, hold, he⟩, rfl⟩ := (h.lookup_iff id c).1 hlookup
    have hclen : c < s.inverted_lists.length := (List.getElem?_eq_some_iff.1 hold).1
    -- The map says that the id is in this list, so the scan finds it, and finds this entry.
    cases hfind : old.findIdx? (fun x => decide (x.id = e.id)) with
    | none =>
      have hnone := List.findIdx?_eq_none_iff.1 hfind e he
      simp at hnone
    | some pos =>
      obtain ⟨hpos, hpid, -⟩ := List.findIdx?_eq_some_iff_getElem.1 hfind
      have hmem : old[pos] ∈ s.entries := IvfIndex.mem_entries hold (List.getElem?_eq_getElem hpos)
      -- The scan goes by the id, and no two entries share one.
      have heq : old[pos] = e := by
        have hinj := List.inj_on_of_nodup_map h.ids_nodup
        exact hinj hmem (mem_flatten_iff.2 ⟨c, old, hold, he⟩) (of_decide_eq_true hpid)
      obtain ⟨list, hswap, -⟩ := swapRemove_of_lt hpos
      have hget : old[pos]? = some e := by rw [List.getElem?_eq_getElem hpos, heq]
      have hlive : 1 ≤ s.live_count := by
        rw [h.live_count]
        exact List.length_pos_of_mem (mem_flatten_iff.2 ⟨c, old, hold, he⟩)
      refine ⟨_, _, Method.run_of_ok ?_, .deleted e c pos old list hold hget hswap⟩
      unfold IvfIndex.delete
      simp only [Method.get_bind, hlookup, Method.set_bind, index_eq_ok hold,
        Method.liftM_checked_ok, pure_bind, hfind, hswap, assign_of_lt _ hclen,
        Method.modify_bind, subtract_of_le hlive, Method.modify_apply]
      rfl

end IqdbIvf
