import IqdbIvf.Spec.Scan

/-!
# The IVF-PQ scans

The candidates are ranked by the distances of their codes, which are a partial function of the query
tables and the code, and then either returned or, as a shortlist, ranked again by their exact
distances. `PqRanked` says which entries come out, at which distances.
-/

set_option linter.unusedSectionVars false

namespace IqdbIvf

open Outcome Ranking Selection

variable {F32 : Type} [Arith F32] {X : Crates F32} {s : IvfIndex X}
  {R : InvertedListEntry X → F32 → Prop} {E : Fault → Prop} {query : List F32}

/-! ## The loops over one cluster -/

section Steps

variable {pre list : List (InvertedListEntry X)} {b : Candidates F32} {c : ℕ}

/-- The distance that `scan_pq_unfiltered` and `scan_pq_filtered` give an entry. -/
def adcScore (X : Crates F32) (metric : DistanceMetric) (tables : X.PqAdcTables)
    (e : InvertedListEntry X) : Option F32 :=
  e.pq_code.bind fun code => (X.adcDistance tables code).toOption.map (orient metric)

/-- One entry of a PQ scan. -/
theorem pqEntry_meets {tables : X.PqAdcTables} {e : InvertedListEntry X} {code : X.PqCode}
    (hcode : e.pq_code = some code) (hE : ∀ err, adcScore X s.metric tables e = none → E (.err err))
    {addr : ℕ × ℕ} (haddr : s.entryAt addr = .ok e)
    (hb : Filled s (fun e d => adcScore X s.metric tables e = some d) pre b) :
    Meets (do
        let code ← e.pqCodeOrErr
        let d ← X.adcDistance tables code
        return b.push (orient s.metric d) e.seq addr : Fallible (Candidates F32))
      (Filled s (fun e d => adcScore X s.metric tables e = some d) (pre ++ [e])) E := by
  have hor : e.pqCodeOrErr = .ok code := by
    unfold InvertedListEntry.pqCodeOrErr
    rw [hcode]
  simp only [hor, liftM_result, mapError_ok, ok_bind]
  cases hd : X.adcDistance tables code with
  | error err =>
    -- A lookup that fails ends the scan, and leaves the entry without a score.
    have hnone : adcScore X s.metric tables e = none := by
      unfold adcScore
      rw [hcode, Option.bind_some, hd]
      rfl
    exact hE err hnone
  | ok d =>
    have hsome : adcScore X s.metric tables e = some (orient s.metric d) := by
      unfold adcScore
      rw [hcode, Option.bind_some, hd]
      rfl
    exact hb.push hsome haddr

/-- The entry loop of `scan_pq_unfiltered` adds the entries of the cluster. -/
theorem scanPqUnfilteredStep_meets {tables : X.PqAdcTables}
    (hcode : ∀ e ∈ list, ∃ code, e.pq_code = some code)
    (hE : ∀ e ∈ list, ∀ err, adcScore X s.metric tables e = none → E (.err err))
    (hc : s.inverted_lists[c]? = some list)
    (hb : Filled s (fun e d => adcScore X s.metric tables e = some d) pre b) :
    Meets (scanPqUnfilteredStep s tables b c)
      (Filled s (fun e d => adcScore X s.metric tables e = some d) (pre ++ list)) E := by
  unfold scanPqUnfilteredStep IvfIndex.invertedList
  simp only [index_eq_ok hc, liftM_checked, mapError_ok, ok_bind]
  apply Meets.foldlM_zipIdx fun done b' =>
    Filled s (fun e d => adcScore X s.metric tables e = some d) (pre ++ done) b'
  · rwa [List.append_nil]
  intro done e post hsplit b' hb'
  have hget := getElem?_of_split hsplit
  have hmem := List.mem_of_getElem? hget
  obtain ⟨code, hecode⟩ := hcode e hmem
  rw [← List.append_assoc]
  exact pqEntry_meets hecode (hE e hmem) (entryAt_eq_ok hc hget) hb'

/-- The entry loop of `scan_pq_filtered` adds the entries that the filter keeps. -/
theorem scanPqFilteredStep_meets {evaluator : X.FilterEvaluator} {tables : X.PqAdcTables}
    (hcode : ∀ e ∈ list, ∃ code, e.pq_code = some code)
    (hE : ∀ e ∈ list, X.evaluate evaluator e.metadata = true → ∀ err,
      adcScore X s.metric tables e = none → E (.err err))
    (hc : s.inverted_lists[c]? = some list)
    (hb : Filled s (fun e d => adcScore X s.metric tables e = some d) pre b) :
    Meets (scanPqFilteredStep s evaluator tables b c)
      (Filled s (fun e d => adcScore X s.metric tables e = some d)
        (pre ++ list.filter fun e => X.evaluate evaluator e.metadata)) E := by
  unfold scanPqFilteredStep IvfIndex.invertedList
  simp only [index_eq_ok hc, liftM_checked, mapError_ok, ok_bind]
  apply Meets.foldlM_zipIdx fun (done : List (InvertedListEntry X)) b' =>
    Filled s (fun e d => adcScore X s.metric tables e = some d)
      (pre ++ done.filter fun e => X.evaluate evaluator e.metadata) b'
  · rwa [List.filter_nil, List.append_nil]
  intro done e post hsplit b' hb'
  have hget := getElem?_of_split hsplit
  have hmem := List.mem_of_getElem? hget
  rw [List.filter_append, ← List.append_assoc]
  cases hkeep : X.evaluate evaluator e.metadata with
  | false =>
    -- The entry is skipped before its code is looked at.
    have hnone : [e].filter (fun e => X.evaluate evaluator e.metadata) = [] := by
      simp [hkeep]
    rw [hnone, List.append_nil]
    exact hb'
  | true =>
    have hsome : [e].filter (fun e => X.evaluate evaluator e.metadata) = [e] := by
      simp [hkeep]
    obtain ⟨code, hecode⟩ := hcode e hmem
    rw [hsome]
    exact pqEntry_meets hecode (hE e hmem hkeep) (entryAt_eq_ok hc hget) hb'

end Steps

section Scans

variable {evaluator : Option X.FilterEvaluator} {probed : List ℕ} {k : ℕ}

/-! ## The exact rerank -/

/-- A batch of distances for listed candidates fills the buffers of the rerank. -/
theorem filled_of_batch {ps : List (Candidate X)} {ds : List F32}
    (hps : ∀ p ∈ ps, s.entryAt p.addr = .ok p.entry)
    (hR : List.Forall₂ R (ps.map (·.entry)) ds) :
    Filled s R (ps.map (·.entry)) ⟨ds, ps.map (·.entry.seq), ps.map (·.addr)⟩ := by
  induction ps generalizing ds with
  | nil =>
    cases hR
    exact Filled.empty
  | cons p ps ih =>
    rcases ds with _ | ⟨d, ds⟩
    · cases hR
    obtain ⟨hp, hR⟩ := List.forall₂_cons.1 hR
    obtain ⟨qs, hof, hfst, hqs⟩ := ih (fun q hq => hps q (List.mem_cons_of_mem p hq)) hR
    simp only [Candidates.of, Candidates.mk.injEq] at hof
    obtain ⟨hds, hseqs, haddrs⟩ := hof
    refine ⟨⟨p.entry, d, p.addr⟩ :: qs, ?_, ?_, ?_⟩
    · simp only [Candidates.of, List.map_cons, hds, hseqs, haddrs]
    · rw [List.map_cons, List.map_cons, hfst]
    · intro q hq
      rcases List.mem_cons.1 hq with rfl | hq
      · exact ⟨hp, hps p List.mem_cons_self⟩
      · exact hqs q hq

/-- `refine_shortlist` over chosen positions of the buffers: the shortlisted entries, ranked by
their exact distances. -/
theorem refineShortlist_meets {T : List (Candidate X × ℕ)} {ps : List (Candidate X)}
    (hT : ∀ p ∈ T, ps[p.2]? = some p.1) (hps : ∀ p ∈ ps, s.entryAt p.addr = .ok p.entry)
    (hd : ((T.map fun p => p.1.entry).map (·.seq)).Nodup)
    (hbatch : BatchMeets s query R E (T.map fun p => p.1.entry)) :
    Meets (refineShortlist s query (T.map Prod.snd) (ps.map (·.addr)) k)
      (fun hits => ∃ out, Ranked R (T.map fun p => p.1.entry) k out ∧ hits = out.map hitOf) E := by
  unfold refineShortlist
  by_cases hempty : T = []
  · subst hempty
    exact ⟨[], ⟨[], rfl, fun p hp => absurd hp List.not_mem_nil, by simp [rank]⟩, rfl⟩
  have hcond : ¬ (T.map Prod.snd).isEmpty = true := by simpa using hempty
  -- The positions lead back to the candidates.
  have hpicked : (T.map Prod.snd).mapM (fun cand_idx => (do
      let addr ← index (ps.map (·.addr)) cand_idx
      let entry ← s.entryAt addr
      return (entry.vector, entry.seq, addr) : Checked (List F32 × ℕ × (ℕ × ℕ))).mapError
        Fault.panic) = .ok (T.map fun p => (p.1.entry.vector, p.1.entry.seq, p.1.addr)) := by
    clear hempty hcond hd hbatch
    induction T with
    | nil => rfl
    | cons p T ih =>
      have hp := hT p List.mem_cons_self
      have haddr : index (ps.map (·.addr)) p.2 = .ok p.1.addr := index_eq_ok (by simp [hp])
      have hentry := hps p.1 (List.mem_of_getElem? hp)
      rw [List.map_cons, List.mapM_cons, haddr, ok_bind, hentry, ok_bind, pure_eq_ok, mapError_ok,
        ok_bind, ih fun q hq => hT q (List.mem_cons_of_mem p hq)]
      rfl
  have hrefs : (T.map fun p => (p.1.entry.vector, p.1.entry.seq, p.1.addr)).map (fun p => p.1) =
      (T.map fun p => p.1.entry).map (·.vector) := by
    rw [List.map_map, List.map_map]
    rfl
  rw [if_neg hcond]
  -- The exact distances of the shortlist, in the order of the shortlist.
  simp only [liftM_checked, hpicked, ok_bind, liftM_result, hrefs]
  apply (hbatch _ (by simpa using hempty) fun e he => he).mapError.bind
  intro exact hexact
  have hcandidates : T.map (fun p => p.1.entry) = (T.map Prod.fst).map (·.entry) := by
    rw [List.map_map]
    rfl
  have hlocated : ∀ p ∈ T.map Prod.fst, s.entryAt p.addr = .ok p.entry := by
    intro p hp
    obtain ⟨q, hq, rfl⟩ := List.mem_map.1 hp
    exact hps q.1 (List.mem_of_getElem? (hT q hq))
  rw [hcandidates] at hexact hd ⊢
  -- So the rerank buffers are filled, and the second selection is one over them.
  have hfilled := filled_of_batch hlocated hexact
  obtain ⟨chosen, out, hchosen, hhits, hranked⟩ := hfilled.hits hd k
  have hseqs : (T.map fun p => (p.1.entry.vector, p.1.entry.seq, p.1.addr)).map (fun p => p.2.1) =
      (T.map Prod.fst).map (·.entry.seq) := by
    rw [List.map_map, List.map_map]
    rfl
  have haddrs : (T.map fun p => (p.1.entry.vector, p.1.entry.seq, p.1.addr)).map
      (fun p => p.2.2) = (T.map Prod.fst).map (·.addr) := by
    rw [List.map_map, List.map_map]
    rfl
  simp only [hseqs, haddrs, hchosen, mapError_ok, ok_bind, hhits]
  exact ⟨out, hranked, rfl⟩

/-- The result of an IVF-PQ scan over the candidates: the ADC ranking, or the exact ranking of its
shortlist. -/
def PqRanked (s : IvfIndex X) (tables : X.PqAdcTables) (R : InvertedListEntry X → F32 → Prop)
    (cands : List (InvertedListEntry X)) (k : ℕ) (out : List (InvertedListEntry X × F32)) : Prop :=
  if s.cfg.pq_refine_factor = 0 then
    Ranked (fun e d => adcScore X s.metric tables e = some d) cands k out
  else ∃ short,
    Ranked (fun e d => adcScore X s.metric tables e = some d) cands
      (saturatingMul s.cfg.pq_refine_factor.toNat k) short ∧
    Ranked R (short.map Prod.fst) k out

/-- `finish_scan_pq` over filled buffers. -/
theorem finishScanPq_meets {tables : X.PqAdcTables} {cands : List (InvertedListEntry X)}
    {b : Candidates F32}
    (hb : Filled s (fun e d => adcScore X s.metric tables e = some d) cands b)
    (hd : (cands.map (·.seq)).Nodup)
    (hbatch : s.cfg.pq_refine_factor ≠ 0 → ∀ short,
      Ranked (fun e d => adcScore X s.metric tables e = some d) cands
        (saturatingMul s.cfg.pq_refine_factor.toNat k) short →
      BatchMeets s query R E (short.map Prod.fst)) :
    Meets (finishScanPq s query k b)
      (fun hits => ∃ out, PqRanked s tables R cands k out ∧ hits = out.map hitOf) E := by
  unfold finishScanPq PqRanked
  dsimp only
  by_cases hzero : s.cfg.pq_refine_factor = 0
  · -- Pure ADC.
    obtain ⟨chosen, out, hchosen, hhits, hranked⟩ := hb.hits hd k
    simp only [if_pos hzero, liftM_checked, hchosen, mapError_ok, ok_bind]
    unfold buildHitsFromAdc
    rw [hhits]
    exact ⟨out, hranked, rfl⟩
  · have hlen := hb.length_eq
    obtain ⟨T, ps, rfl, hselect, hT, hps, hranked⟩ :=
      hb.select hd (min (saturatingMul s.cfg.pq_refine_factor.toNat k) cands.length)
    -- The cut of the shortlist to the candidates that there are does not matter.
    have hshort := hranked.of_min
    have hfst : (T.map fun p => (p.1.entry, p.1.distance)).map Prod.fst =
        T.map fun p => p.1.entry := by
      rw [List.map_map]
      rfl
    have hbatch := hbatch hzero _ hshort
    -- A shortlist repeats no stamp of the candidates.
    have hd' : ((T.map fun p => p.1.entry).map (·.seq)).Nodup := by
      obtain ⟨l, hperm, hsub⟩ := hshort.subperm
      rw [hfst] at hperm
      exact ((hperm.map _).nodup_iff).1 (hd.sublist (hsub.map _))
    rw [hfst] at hbatch
    simp only [if_neg hzero, liftM_checked, hlen, hselect, mapError_ok, ok_bind]
    apply (refineShortlist_meets hT hps hd' hbatch).mono _ fun _ => id
    rintro hits ⟨out, hout, rfl⟩
    exact ⟨out, ⟨_, hshort, by rw [hfst]; exact hout⟩, rfl⟩

/-- What follows the cluster loop of an IVF-PQ scan. -/
theorem pqTail_meets {tables : X.PqAdcTables} {cands : List (InvertedListEntry X)}
    {b : Candidates F32}
    (hb : Filled s (fun e d => adcScore X s.metric tables e = some d) cands b)
    (hd : (cands.map (·.seq)).Nodup)
    (hbatch : s.cfg.pq_refine_factor ≠ 0 → ∀ short,
      Ranked (fun e d => adcScore X s.metric tables e = some d) cands
        (saturatingMul s.cfg.pq_refine_factor.toNat k) short →
      BatchMeets s query R E (short.map Prod.fst)) :
    Meets (do
        if b.distances.isEmpty then return []
        finishScanPq s query k b : Fallible (List (Hit X)))
      (fun hits => ∃ out, PqRanked s tables R cands k out ∧ hits = out.map hitOf) E := by
  by_cases hempty : b.distances.isEmpty = true
  · rw [if_pos hempty]
    have hnil := hb.isEmpty_iff.1 hempty
    subst hnil
    have hranked : ∀ (R : InvertedListEntry X → F32 → Prop) n, Ranked R [] n [] := fun R n =>
      ⟨[], rfl, fun p hp => absurd hp List.not_mem_nil, by simp [rank]⟩
    refine ⟨[], ?_, rfl⟩
    unfold PqRanked
    by_cases hzero : s.cfg.pq_refine_factor = 0
    · rw [if_pos hzero]
      exact hranked _ k
    · rw [if_neg hzero]
      exact ⟨[], hranked _ _, hranked R k⟩
  · rw [if_neg hempty]
    exact finishScanPq_meets hb hd hbatch

/-- The two IVF-PQ scans select among the candidates. -/
theorem scanPq_meets (h : Inv s) (hprobed : probed.Nodup)
    (hlt : ∀ c ∈ probed, c < s.inverted_lists.length) {pq : X.ProductQuantizer}
    (hpq : s.pq = some pq) (hcode : ∀ e ∈ s.entries, ∃ code, e.pq_code = some code)
    (htables : ∀ err, X.buildQueryTables pq query s.metric = .error err → E (.err err))
    (hadc : ∀ tables, X.buildQueryTables pq query s.metric = .ok tables →
      ∀ e ∈ s.candidates evaluator probed, ∀ err, adcScore X s.metric tables e = none →
        E (.err err))
    (hbatch : s.cfg.pq_refine_factor ≠ 0 → ∀ tables,
      X.buildQueryTables pq query s.metric = .ok tables → ∀ short,
      Ranked (fun e d => adcScore X s.metric tables e = some d) (s.candidates evaluator probed)
        (saturatingMul s.cfg.pq_refine_factor.toNat k) short →
      BatchMeets s query R E (short.map Prod.fst)) :
    Meets (match evaluator with
        | none => scanPqUnfiltered s query probed k
        | some eval => scanPqFiltered s eval query probed k)
      (fun hits => ∃ tables, X.buildQueryTables pq query s.metric = .ok tables ∧
        ∃ out, PqRanked s tables R (s.candidates evaluator probed) k out ∧ hits = out.map hitOf)
      E := by
  have hd := h.candidates_seqs evaluator hprobed
  have hor : s.pqOrErr = .ok pq := by
    unfold IvfIndex.pqOrErr
    rw [hpq]
  have hlist : ∀ {c : ℕ} {list : List (InvertedListEntry X)}, s.inverted_lists[c]? = some list →
      ∀ e ∈ list, ∃ code, e.pq_code = some code := fun hc e he =>
    hcode e (Buckets.mem_flatten_iff.2 ⟨_, _, hc, he⟩)
  cases hbuild : X.buildQueryTables pq query s.metric with
  | error err =>
    have herr := htables err hbuild
    cases evaluator with
    | none =>
      show Meets (scanPqUnfiltered s query probed k) _ _
      unfold scanPqUnfiltered
      simp only [hor, liftM_result, mapError_ok, ok_bind, hbuild, mapError_error, error_bind]
      exact herr
    | some eval =>
      show Meets (scanPqFiltered s eval query probed k) _ _
      unfold scanPqFiltered
      simp only [hor, liftM_result, mapError_ok, ok_bind, hbuild, mapError_error, error_bind]
      exact herr
  | ok tables =>
    have htail : ∀ b, Filled s (fun e d => adcScore X s.metric tables e = some d)
        (s.candidates evaluator probed) b →
        Meets (do
            if b.distances.isEmpty then return []
            finishScanPq s query k b : Fallible (List (Hit X)))
          (fun hits => ∃ tables', Except.ok tables = Except.ok (ε := IqdbError) tables' ∧
            ∃ out, PqRanked s tables' R (s.candidates evaluator probed) k out ∧
              hits = out.map hitOf) E := fun b hb =>
      (pqTail_meets hb hd fun hzero short => hbatch hzero tables hbuild short).mono
        (fun hits hhits => ⟨tables, rfl, hhits⟩) fun _ => id
    cases evaluator with
    | none =>
      show Meets (scanPqUnfiltered s query probed k) _ _
      unfold scanPqUnfiltered
      simp only [hor, liftM_result, mapError_ok, ok_bind, hbuild]
      apply Meets.bind (probe_meets hlt fun c hc list hlist' pre b hb => ?_)
      · exact htail
      · have hkeep : (list.filter fun e => keeps X none e.metadata) = list :=
          List.filter_eq_self.2 fun _ _ => rfl
        rw [hkeep]
        apply scanPqUnfilteredStep_meets (hlist hlist') _ hlist' hb
        exact fun e he => hadc tables hbuild e
          (mem_candidates_of_list hc hlist' (by rw [hkeep]; exact he))
    | some eval =>
      show Meets (scanPqFiltered s eval query probed k) _ _
      unfold scanPqFiltered
      simp only [hor, liftM_result, mapError_ok, ok_bind, hbuild]
      apply Meets.bind (probe_meets hlt fun c hc list hlist' pre b hb => ?_)
      · exact htail
      · apply scanPqFilteredStep_meets (hlist hlist') _ hlist' hb
        exact fun e he hkeep => hadc tables hbuild e
          (mem_candidates_of_list hc hlist' (List.mem_filter.2 ⟨he, hkeep⟩))

end Scans

end IqdbIvf
