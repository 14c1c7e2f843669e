import IqdbIvf.Spec.Abstraction

/-!
# The outcome of every call

The exits of the calls exclude one another: each has a condition on the state and the arguments, and
the conditions are decided in the order of the source. So the table of the exits is exact, a call
returns `r` and leaves `t` if and only if one of its exits says so (`call_eq_ok_iff`).
-/

set_option linter.unusedSectionVars false

namespace IqdbIvf

open Outcome Rational

variable {F32 : Type} [Arith F32] {X : Crates F32} {s t : IvfIndex X}

/-- The outcome of a training. -/
theorem Transition.train_eq {sample : Slice (List F32)} {r : Except IqdbError Unit}
    (h : Transition s (.train sample) r t) : (r, t) =
      if s.trained = true then (.error (.invalidConfig
        "IvfIndex is already trained; use retrain() to rebuild centroids"), s)
      else match clusterings s.dim s.cfg.n_clusters s.cfg.seed sample.1
          s.cfg.training_sample_size with
        | .error e => (.error e, s)
        | .ok cs => match s.view.codebooks sample.1 with
          | .error e => (.error e, { s with centroids := cs })
          | .ok pq => (.ok (), { s with centroids := cs, pq := pq, trained := true }) := by
  have hnever : s.trained = false → ¬ s.trained = true := Bool.eq_false_iff.1
  cases h with
  | trainTwice _ htrained => rw [if_pos htrained]
  | trainKmeansFails _ e htrained hkmeans =>
    rw [if_neg (hnever htrained), clusterings_of_error _ _ hkmeans]
  | trainPqFails _ cs e htrained hkmeans huse hpq =>
    have hbooks : s.view.codebooks sample.1 = .error e := View.codebooks_of_error huse hpq
    rw [if_neg (hnever htrained), clusterings_of_ok hkmeans]
    simp only [hbooks]
  | trained _ cs pq htrained hkmeans hpq =>
    have hbooks : s.view.codebooks sample.1 = .ok pq := View.codebooks_of_trainsPq hpq
    rw [if_neg (hnever htrained), clusterings_of_ok hkmeans]
    simp only [hbooks]

/-- The outcome of an insert. -/
theorem Transition.insert_eq {id : X.VectorId} {v : List F32} {m : Option X.Metadata}
    {r : Except IqdbError Unit} (h : Transition s (.insert id v m) r t) : (r, t) =
      if s.trained = false then
        (.error (.invalidConfig "IvfIndex must be trained before use"), s)
      else if v.length ≠ s.dim then (.error (.dimensionMismatch s.dim v.length), s)
      else if id ∈ s.entries.map (·.id) then (.error .duplicate, s)
      else if ¬ s.next_seq + 1 < 2^64 then
        (.error (.invalidConfig "IvfIndex insertion sequence counter overflowed u64"), s)
      else match s.encode v with
        | .error e => (.error e, s.bumpSeq)
        | .ok code => (.ok (),
          s.bumpSeq.addEntry (nearest s.centroids v) ⟨id, v, code, m, s.next_seq⟩) := by
  have hnever : s.trained = true → ¬ s.trained = false := Bool.ne_false_iff.2
  cases h with
  | insertUntrained _ _ _ htrained => rw [if_pos htrained]
  | insertWrongDim _ _ _ htrained hdim => rw [if_neg (hnever htrained), if_pos hdim]
  | insertDuplicate _ _ _ htrained hdim hid =>
    rw [if_neg (hnever htrained), if_neg (not_not.2 hdim), if_pos hid]
  | insertOverflow _ _ _ htrained hdim hid hseq =>
    rw [if_neg (hnever htrained), if_neg (not_not.2 hdim), if_neg hid, if_pos hseq]
  | insertEncodeFails _ _ _ e htrained hdim hid hseq hcode =>
    rw [if_neg (hnever htrained), if_neg (not_not.2 hdim), if_neg hid, if_neg (not_not.2 hseq),
      hcode]
  | inserted _ _ _ code htrained hdim hid hseq hcode =>
    rw [if_neg (hnever htrained), if_neg (not_not.2 hdim), if_neg hid, if_neg (not_not.2 hseq),
      hcode]

/-- Two deletes that remove an entry remove the same one. -/
theorem Transition.delete_unique {id : X.VectorId} {r r' : Except IqdbError Unit}
    {t' : IvfIndex X} (h : Transition s (.delete id) r t) (h' : Transition s (.delete id) r' t')
    (hs : Inv s) : r = r' ∧ t = t' := by
  have hmem : ∀ {c pos : ℕ} {old : List (InvertedListEntry X)} {e : InvertedListEntry X},
      s.inverted_lists[c]? = some old → old[pos]? = some e → e.id ∈ s.entries.map (·.id) :=
    fun hold hpos => List.mem_map_of_mem (IvfIndex.mem_entries hold hpos)
  generalize hop : Op.delete id = op at h'
  cases h with
  | deleteAbsent _ hid =>
    cases h' with
    | deleteAbsent => exact ⟨rfl, rfl⟩
    | deleted e' c' pos' old' list' hold' hpos' hlist' =>
      injection hop with hop
      subst hop
      exact absurd (hmem hold' hpos') hid
    | _ => cases hop
  | deleted e c pos old list hold hpos hlist =>
    cases h' with
    | deleteAbsent _ hid =>
      injection hop with hop
      subst hop
      exact absurd (hmem hold hpos) hid
    | deleted e' c' pos' old' list' hold' hpos' hlist' =>
      injection hop with hid
      -- The id names the list, and the position in it.
      have hc : c = c' := Buckets.Holds.unique hs.ids_nodup
        ⟨old, hold, List.mem_of_getElem? hpos⟩ ⟨old', hold', List.mem_of_getElem? hpos'⟩ hid
      subst hc
      obtain rfl : old = old' := Option.some.inj (hold.symm.trans hold')
      have hpos_eq : pos = pos' := by
        have hlt : pos < (old.map (·.id)).length := by
          rw [List.length_map]
          exact (List.getElem?_eq_some_iff.1 hpos).1
        apply (List.getElem?_inj hlt (hs.list_ids_nodup hold)).1
        rw [List.getElem?_map, List.getElem?_map, hpos, hpos', Option.map_some, Option.map_some,
          hid]
      subst hpos_eq
      obtain rfl : e = e' := Option.some.inj (hpos.symm.trans hpos')
      obtain rfl : list = list' := Except.ok.inj (hlist.symm.trans hlist')
      exact ⟨rfl, rfl⟩
    | _ => cases hop

/-- The outcome of a retraining. -/
theorem Transition.retrain_eq {r : Except IqdbError Unit} (h : Transition s .retrain r t) :
    (r, t) =
      if s.trained = false then
        (.error (.invalidConfig "IvfIndex must be trained before retrain()"), s)
      else if s.live_count = 0 then (.ok (), s)
      else match clusterings s.dim s.cfg.n_clusters s.cfg.seed s.sample s.sample.length with
        | .error e => (.error e, s.drained s.centroids s.pq)
        | .ok cs => match s.view.codebooks s.sample with
          | .error e => (.error e, s.drained cs s.pq)
          | .ok pq =>
            let stored := View.encodable { s.view with centroids := cs, pq := pq } s.items
            (stored.1, (s.drained cs pq).placeAll (s.live.take stored.2.length)) := by
  have hnever : s.trained = true → ¬ s.trained = false := Bool.ne_false_iff.2
  cases h with
  | retrainUntrained htrained => rw [if_pos htrained]
  | retrainEmpty htrained hlive => rw [if_neg (hnever htrained), if_pos hlive]
  | retrainKmeansFails e htrained hlive hkmeans =>
    rw [if_neg (hnever htrained), if_neg hlive, clusterings_of_error _ _ hkmeans]
  | retrainPqFails cs e htrained hlive hkmeans huse hpq =>
    have hbooks : s.view.codebooks s.sample = .error e := View.codebooks_of_error huse hpq
    rw [if_neg (hnever htrained), if_neg hlive, clusterings_of_ok hkmeans]
    simp only [hbooks]
  | retrainEncodeFails cs pq done rest entry e htrained hlive hkmeans hpq hsplit hdone hcode =>
    have hbooks : s.view.codebooks s.sample = .ok pq := View.codebooks_of_trainsPq hpq
    have htake : s.live.take (done.map (·.item)).length = done := by
      rw [hsplit, List.length_map, List.take_left]
    rw [if_neg (hnever htrained), if_neg hlive, clusterings_of_ok hkmeans]
    simp only [hbooks, encodable_live_of_error hsplit hdone hcode, htake]
  | retrained cs pq htrained hlive hkmeans hpq hcode =>
    have hbooks : s.view.codebooks s.sample = .ok pq := View.codebooks_of_trainsPq hpq
    have htake : s.live.take s.items.length = s.live := by
      apply List.take_of_length_le
      unfold IvfIndex.items
      rw [List.length_map]
    rw [if_neg (hnever htrained), if_neg hlive, clusterings_of_ok hkmeans]
    simp only [hbooks, encodable_live_of_ok hcode, htake]

/-- A call has one outcome. -/
theorem Transition.unique {op : Op X} {r r' : Except IqdbError Unit} {t' : IvfIndex X}
    (h : Transition s op r t) (h' : Transition s op r' t') (hs : Inv s) : r = r' ∧ t = t' := by
  rw [← Prod.mk.injEq]
  cases op with
  | train sample => rw [h.train_eq, h'.train_eq]
  | insert id v m => rw [h.insert_eq, h'.insert_eq]
  | delete id => rw [Prod.mk.injEq]; exact h.delete_unique h' hs
  | setNProbes n =>
    cases h with
    | setNProbesZero =>
      cases h' with
      | setNProbesZero => rfl
      | setNProbesTooMany _ hn' => omega
      | nProbesSet _ hpos' hn' => omega
    | setNProbesTooMany _ hn =>
      cases h' with
      | setNProbesZero => omega
      | setNProbesTooMany => rfl
      | nProbesSet _ hpos' hn' => omega
    | nProbesSet _ hpos hn =>
      cases h' with
      | setNProbesZero => omega
      | setNProbesTooMany _ hn' => omega
      | nProbesSet => rfl
  | setPqRefineFactor factor =>
    cases h with
    | pqRefineFactorSet =>
      cases h' with
      | pqRefineFactorSet => rfl
  | retrain => rw [h.retrain_eq, h'.retrain_eq]

/-- The table of the exits is exact: on a reachable index a call returns a result and leaves a state
if and only if one of its exits says so. -/
theorem call_eq_ok_iff (hs : Reachable s) (op : Op X) (r : Except IqdbError Unit)
    (t : IvfIndex X) : call op s = .ok (r, t) ↔ Transition s op r t := by
  constructor
  · exact transition_of_call hs.inv
  · intro h
    obtain ⟨r', t', hcall, h'⟩ := call_transition hs.inv op
    obtain ⟨rfl, rfl⟩ := h.unique h' hs.inv
    exact hcall

/-- An insert of a live id. -/
def secondInsert : Op crates := .insert 3 [7] none

/-- The insert of a live id is refused, by the table. -/
theorem flatState_secondInsert :
    call secondInsert flatState = .ok (.error .duplicate, flatState) :=
  (call_eq_ok_iff flatState_reachable secondInsert (.error .duplicate) flatState).2
    (.insertDuplicate _ _ _ (by decide +kernel) (by decide +kernel) (by decide +kernel))

end IqdbIvf
