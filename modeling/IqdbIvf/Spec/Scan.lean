import IqdbIvf.Lib.Selection
import IqdbIvf.Spec.Invariant
import IqdbIvf.Spec.Topk

/-!
# The scans of the probed clusters

A scan fills parallel buffers with one position per candidate. `Filled` says which candidates the
buffers stand for: the entries in order, a distance of each that satisfies a given relation, and an
address at which the entry is found. Every loop extends it by the entries that it reads, top-`k`
selection and hit construction only depend on it, and so each of the four scans is a selection over
the entries of the probed clusters.

The distances come from `compute_batch`, about which nothing is known here: the relation `R` and the
errors `E` are what a caller assumes of it.
-/

set_option linter.unusedSectionVars false

namespace IqdbIvf

open Outcome Ranking Selection

variable {F32 : Type} [Arith F32] {X : Crates F32} {s : IvfIndex X}

/-! ## The buffers -/

/-- A candidate of a scan: an entry, its distance, and its address. -/
structure Candidate (X : Crates F32) where
  entry : InvertedListEntry X
  distance : F32
  addr : ℕ × ℕ

/-- The buffers of a list of candidates. -/
def Candidates.of (ps : List (Candidate X)) : Candidates F32 :=
  ⟨ps.map (·.distance), ps.map (·.entry.seq), ps.map (·.addr)⟩

/-- The hit for an entry at a distance. -/
def hitOf (p : InvertedListEntry X × F32) : Hit X := ⟨p.1.id, p.2, p.1.metadata⟩

/-- The buffers stand for candidates with the given entries, at distances in the relation `R`. -/
def Filled (s : IvfIndex X) (R : InvertedListEntry X → F32 → Prop)
    (es : List (InvertedListEntry X)) (b : Candidates F32) : Prop :=
  ∃ ps : List (Candidate X), b = .of ps ∧ ps.map (·.entry) = es ∧
    ∀ p ∈ ps, R p.entry p.distance ∧ s.entryAt p.addr = .ok p.entry

section Filled

variable {R : InvertedListEntry X → F32 → Prop} {es : List (InvertedListEntry X)}
  {b : Candidates F32}

/-- The empty buffers stand for no candidates. -/
theorem Filled.empty : Filled s R [] (.empty : Candidates F32) :=
  ⟨[], rfl, rfl, fun _ hp => absurd hp List.not_mem_nil⟩

/-- Pushing a candidate adds its entry. -/
theorem Filled.push (h : Filled s R es b) {e : InvertedListEntry X} {d : F32} {addr : ℕ × ℕ}
    (hR : R e d) (haddr : s.entryAt addr = .ok e) :
    Filled s R (es ++ [e]) (b.push d e.seq addr) := by
  obtain ⟨ps, rfl, rfl, hps⟩ := h
  refine ⟨ps ++ [⟨e, d, addr⟩], ?_, ?_, ?_⟩
  · simp [Candidates.push, Candidates.of]
  · simp
  · intro p hp
    rcases List.mem_append.1 hp with hp | hp
    · exact hps p hp
    · obtain rfl := List.mem_singleton.1 hp
      exact ⟨hR, haddr⟩

/-- The buffers are empty when there is no candidate. -/
theorem Filled.isEmpty_iff (h : Filled s R es b) : b.distances.isEmpty = true ↔ es = [] := by
  obtain ⟨ps, rfl, rfl, -⟩ := h
  simp [Candidates.of]

/-- There is one distance per candidate. -/
theorem Filled.length_eq (h : Filled s R es b) : b.distances.length = es.length := by
  obtain ⟨ps, rfl, rfl, -⟩ := h
  simp [Candidates.of]

/-- The first `n` of the entries by distance and stamp, at distances in the relation. -/
def Ranked (R : InvertedListEntry X → F32 → Prop) (es : List (InvertedListEntry X)) (n : ℕ)
    (out : List (InvertedListEntry X × F32)) : Prop :=
  Selects Arith.totalCmp (fun e : InvertedListEntry X => e.seq) R n es out

/-- Hit construction from the chosen positions of the buffers. -/
theorem buildHits_of (T : List (Candidate X × ℕ)) {ps : List (Candidate X)}
    (hT : ∀ p ∈ T, ps[p.2]? = some p.1) (hps : ∀ p ∈ ps, s.entryAt p.addr = .ok p.entry) :
    buildHits s (T.map Prod.snd) (ps.map (·.distance)) (ps.map (·.addr)) =
      .ok (T.map fun p => hitOf (p.1.entry, p.1.distance)) := by
  unfold buildHits
  induction T with
  | nil => rfl
  | cons p T ih =>
    have hp := hT p List.mem_cons_self
    have haddr : index (ps.map (·.addr)) p.2 = .ok p.1.addr := index_eq_ok (by simp [hp])
    have hdist : index (ps.map (·.distance)) p.2 = .ok p.1.distance := index_eq_ok (by simp [hp])
    have hentry := hps p.1 (List.mem_of_getElem? hp)
    rw [List.map_cons, List.mapM_cons, haddr, ok_bind, hentry, ok_bind, hdist, ok_bind,
      ih fun q hq => hT q (List.mem_cons_of_mem p hq)]
    rfl

/-- Top-`k` selection over filled buffers: the positions of ranked entries. -/
theorem Filled.select (h : Filled s R es b) (hd : (es.map (·.seq)).Nodup) (k : ℕ) :
    ∃ T : List (Candidate X × ℕ), ∃ ps : List (Candidate X), b = .of ps ∧
      selectTopkIndices b.distances b.seqs k = .ok (T.map Prod.snd) ∧
      (∀ p ∈ T, ps[p.2]? = some p.1) ∧ (∀ p ∈ ps, s.entryAt p.addr = .ok p.entry) ∧
      Ranked R es k (T.map fun p => (p.1.entry, p.1.distance)) := by
  obtain ⟨ps, rfl, rfl, hps⟩ := h
  have hd' : (ps.map (·.entry.seq)).Nodup := by
    rwa [List.map_map] at hd
  -- The buffers are projections of one list of candidates, which is what gets ranked.
  obtain ⟨T, hsel, hfst, hT⟩ :=
    selectTopkIndices_spec (fun p : Candidate X => p.distance) (fun p => p.entry.seq) k hd'
  refine ⟨T, ps, rfl, hsel, hT, fun p hp => (hps p hp).2,
    ps.map fun p => (p.entry, p.distance), ?_, ?_, ?_⟩
  · rw [List.map_map]
    rfl
  · intro p hp
    obtain ⟨q, hq, rfl⟩ := List.mem_map.1 hp
    exact (hps q hq).1
  · have hmap : (rank Arith.totalCmp (fun p : Candidate X => p.distance) (fun p => p.entry.seq)
        ps).map (fun p => (p.entry, p.distance)) =
        rank Arith.totalCmp Prod.snd (fun p => p.1.seq) (ps.map fun p => (p.entry, p.distance)) :=
      map_rank _ ps (fun _ _ => rfl) fun _ _ _ _ => rfl
    rw [← hmap, ← List.map_take, ← hfst, List.map_map]
    rfl

/-- Top-`k` selection over filled buffers, and the hits for what it chooses. -/
theorem Filled.hits (h : Filled s R es b) (hd : (es.map (·.seq)).Nodup) (k : ℕ) :
    ∃ chosen out, selectTopkIndices b.distances b.seqs k = .ok chosen ∧
      buildHits s chosen b.distances b.addrs = .ok (out.map hitOf) ∧ Ranked R es k out := by
  obtain ⟨T, ps, rfl, hsel, hT, hps, hranked⟩ := h.select hd k
  refine ⟨_, _, hsel, ?_, hranked⟩
  rw [List.map_map]
  exact buildHits_of T hT hps

end Filled

/-! ## The loops over one cluster -/

section Steps

variable {R : InvertedListEntry X → F32 → Prop} {E : Fault → Prop} {query : List F32}
  {pre list : List (InvertedListEntry X)} {b : Candidates F32} {c : ℕ}

/-- The entry at an address. -/
theorem entryAt_eq_ok (hc : s.inverted_lists[c]? = some list) {i : ℕ} {e : InvertedListEntry X}
    (hi : list[i]? = some e) : s.entryAt (c, i) = .ok e := by
  unfold IvfIndex.entryAt IvfIndex.invertedList
  rw [index_eq_ok hc, ok_bind, index_eq_ok hi]

/-- Related lists have related elements at each position. -/
theorem getElem?_of_forall₂ {α β : Type} {Q : α → β → Prop} {xs : List α} {ys : List β}
    (h : List.Forall₂ Q xs ys) {i : ℕ} {x : α} (hi : xs[i]? = some x) :
    ∃ y, ys[i]? = some y ∧ Q x y := by
  induction h generalizing i with
  | nil => cases hi
  | @cons a b xs ys hab _ ih =>
    rcases i with _ | i
    · obtain rfl : a = x := by simpa using hi
      exact ⟨b, rfl, hab⟩
    · exact ih (by simpa using hi)

/-- The element behind a part of a list stands at the position that follows the part. -/
theorem getElem?_of_split {α : Type} {xs pre post : List α} {x : α} (h : xs = pre ++ x :: post) :
    xs[0 + pre.length]? = some x := by
  rw [h, Nat.zero_add, List.getElem?_append_right (Nat.le_refl _), Nat.sub_self]
  rfl

/-- What a caller assumes of `compute_batch` on batches of the given entries. -/
def BatchMeets (s : IvfIndex X) (query : List F32) (R : InvertedListEntry X → F32 → Prop)
    (E : Fault → Prop) (cands : List (InvertedListEntry X)) : Prop :=
  ∀ es : List (InvertedListEntry X), es ≠ [] → (∀ e ∈ es, e ∈ cands) →
    Meets (orientedBatch X s.metric query (es.map (·.vector))) (List.Forall₂ R es)
      fun e => E (.err e)

/-- What a caller assumes of `compute_batch` on the given entries, if there are any. -/
def ListMeets (s : IvfIndex X) (query : List F32) (R : InvertedListEntry X → F32 → Prop)
    (E : Fault → Prop) (es : List (InvertedListEntry X)) : Prop :=
  es ≠ [] → Meets (orientedBatch X s.metric query (es.map (·.vector))) (List.Forall₂ R es)
    fun e => E (.err e)

/-- The cluster loop of `scan_flat_unfiltered` adds the entries of the cluster. -/
theorem scanFlatUnfilteredStep_meets (hbatch : ListMeets s query R E list)
    (hc : s.inverted_lists[c]? = some list) (hb : Filled s R pre b) :
    Meets (scanFlatUnfilteredStep s query b c) (Filled s R (pre ++ list)) E := by
  unfold scanFlatUnfilteredStep IvfIndex.invertedList
  simp only [index_eq_ok hc, liftM_checked, mapError_ok, ok_bind]
  by_cases hempty : list = []
  · subst hempty
    rw [List.append_nil]
    exact hb
  have hcond : ¬ list.isEmpty = true := by simpa using hempty
  rw [if_neg hcond, liftM_result]
  apply (hbatch hempty).mapError.bind
  intro dists hdists
  -- The entries read so far are in the buffers.
  apply Meets.foldlM_zipIdx fun done b' => Filled s R (pre ++ done) b'
  · rwa [List.append_nil]
  intro done e post hsplit b' hb'
  have hget := getElem?_of_split hsplit
  obtain ⟨d, hd, hR⟩ := getElem?_of_forall₂ hdists hget
  simp only [index_eq_ok hd, mapError_ok, ok_bind]
  rw [← List.append_assoc]
  exact hb'.push hR (entryAt_eq_ok hc hget)

/-- The entry loop of `scan_flat_filtered` adds the survivors, which are addressed by their
positions in the cluster. -/
theorem pushSurvivors_meets {survivors : List (InvertedListEntry X × ℕ)} {dists : List F32}
    (hc : s.inverted_lists[c]? = some list) (hmem : ∀ p ∈ survivors, list[p.2]? = some p.1)
    (hdists : List.Forall₂ R (survivors.map Prod.fst) dists) (hb : Filled s R pre b) :
    Meets ((survivors.map fun p => p.2).zipIdx.foldlM (fun b p => do
        return b.push (← index dists p.2) (← index list p.1).seq (c, p.1)) b :
          Fallible (Candidates F32))
      (Filled s R (pre ++ survivors.map Prod.fst)) E := by
  -- The `i`-th step pushes the `i`-th survivor.
  have hloop : Meets ((survivors.map fun p => p.2).zipIdx.foldlM (fun b p => do
      return b.push (← index dists p.2) (← index list p.1).seq (c, p.1)) b :
        Fallible (Candidates F32))
      (Filled s R (pre ++ (survivors.take (survivors.map fun p => p.2).length).map
        Prod.fst)) E := by
    apply Meets.foldlM_zipIdx fun done b' =>
      Filled s R (pre ++ (survivors.take done.length).map Prod.fst) b'
    · simpa using hb
    intro done pos post hsplit b' hb'
    have hpos := getElem?_of_split hsplit
    rw [Nat.zero_add, List.getElem?_map, Option.map_eq_some_iff] at hpos
    obtain ⟨survivor, hsurvivor, rfl⟩ := hpos
    have hentry := hmem survivor (List.mem_of_getElem? hsurvivor)
    obtain ⟨d, hd, hR⟩ := getElem?_of_forall₂ hdists
      (i := done.length) (x := survivor.1) (by simp [hsurvivor])
    have htake : survivors.take (done ++ [survivor.2]).length =
        survivors.take done.length ++ [survivor] := by
      rw [List.length_append, List.length_singleton, List.take_add_one, hsurvivor]
      rfl
    simp only [Nat.zero_add, index_eq_ok hd, index_eq_ok hentry]
    rw [htake, List.map_append, ← List.append_assoc]
    exact hb'.push hR (entryAt_eq_ok hc hentry)
  rw [List.length_map, List.take_length] at hloop
  exact hloop

/-- The cluster loop of `scan_flat_filtered` adds the entries that the filter keeps. -/
theorem scanFlatFilteredStep_meets {evaluator : X.FilterEvaluator}
    (hbatch : ListMeets s query R E (list.filter fun e => X.evaluate evaluator e.metadata))
    (hc : s.inverted_lists[c]? = some list) (hb : Filled s R pre b) :
    Meets (scanFlatFilteredStep s evaluator query b c)
      (Filled s R (pre ++ list.filter fun e => X.evaluate evaluator e.metadata)) E := by
  unfold scanFlatFilteredStep IvfIndex.invertedList
  simp only [index_eq_ok hc, liftM_checked, mapError_ok, ok_bind]
  by_cases hempty : list = []
  · subst hempty
    rw [List.filter_nil, List.append_nil]
    exact hb
  have hcond : ¬ list.isEmpty = true := by simpa using hempty
  rw [if_neg hcond]
  generalize hsurvivors : list.zipIdx.filter
    (fun p => X.evaluate evaluator p.1.metadata) = survivors
  -- The survivors are the kept entries with their positions.
  have hmem : ∀ p ∈ survivors, list[p.2]? = some p.1 := by
    intro p hp
    rw [← hsurvivors] at hp
    exact List.mem_zipIdx_iff_getElem?.1 (List.mem_filter.1 hp).1
  have hfst : survivors.map Prod.fst =
      list.filter fun e => X.evaluate evaluator e.metadata := by
    rw [← hsurvivors]
    exact map_fst_filter_zipIdx list fun e => X.evaluate evaluator e.metadata
  -- From here on only the list of survivors matters.
  rw [← hfst] at hbatch ⊢
  clear hsurvivors hfst
  by_cases hnone : survivors = []
  · subst hnone
    simpa using hb
  have hcond : ¬ (survivors.map fun p => p.1.vector).isEmpty = true := by simpa using hnone
  have hrefs : (survivors.map fun p => p.1.vector) = (survivors.map Prod.fst).map (·.vector) := by
    rw [List.map_map]
    rfl
  rw [if_neg hcond, liftM_result, hrefs]
  apply (hbatch (by simpa using hnone)).mapError.bind
  intro dists hdists
  exact pushSurvivors_meets hc hmem hdists hb

end Steps

/-! ## The scans -/

/-- What the filter of a query, if there is one, says of an entry's metadata. -/
def keeps (X : Crates F32) (evaluator : Option X.FilterEvaluator) (metadata : Option X.Metadata) :
    Bool :=
  match evaluator with
  | none => true
  | some eval => X.evaluate eval metadata

/-- The entries of a cluster that satisfy the filter. -/
def IvfIndex.kept (s : IvfIndex X) (evaluator : Option X.FilterEvaluator) (c : ℕ) :
    List (InvertedListEntry X) :=
  (s.inverted_lists[c]?.getD []).filter fun e => keeps X evaluator e.metadata

/-- The entries of the probed clusters that satisfy the filter, in scan order. -/
def IvfIndex.candidates (s : IvfIndex X) (evaluator : Option X.FilterEvaluator)
    (probed : List ℕ) : List (InvertedListEntry X) :=
  (probed.flatMap fun c => s.inverted_lists[c]?.getD []).filter fun e =>
    keeps X evaluator e.metadata

section Scans

variable {R : InvertedListEntry X → F32 → Prop} {E : Fault → Prop} {query : List F32}
  {evaluator : Option X.FilterEvaluator} {probed : List ℕ} {k : ℕ}

/-- The kept entries of a cluster of the index. -/
theorem kept_eq {c : ℕ} {list : List (InvertedListEntry X)}
    (hlist : s.inverted_lists[c]? = some list) :
    s.kept evaluator c = list.filter fun e => keeps X evaluator e.metadata := by
  unfold IvfIndex.kept
  rw [hlist]
  rfl

/-- A kept entry of a cluster. -/
theorem mem_kept {c : ℕ} {e : InvertedListEntry X} :
    e ∈ s.kept evaluator c ↔
      Buckets.Holds s.inverted_lists c e ∧ keeps X evaluator e.metadata = true := by
  unfold IvfIndex.kept
  rw [List.mem_filter]
  apply and_congr_left'
  constructor
  · intro he
    cases hlist : s.inverted_lists[c]? with
    | none =>
      rw [hlist] at he
      exact absurd he List.not_mem_nil
    | some list =>
      rw [hlist] at he
      exact ⟨list, hlist, he⟩
  · rintro ⟨list, hlist, he⟩
    rw [hlist]
    exact he

/-- The candidates are the kept entries of the probed clusters. -/
theorem candidates_eq : s.candidates evaluator probed = probed.flatMap (s.kept evaluator) := by
  unfold IvfIndex.candidates
  rw [List.filter_flatMap]
  rfl

/-- A candidate is an entry of a probed cluster. -/
theorem mem_candidates {e : InvertedListEntry X} :
    e ∈ s.candidates evaluator probed ↔
      (∃ c ∈ probed, Buckets.Holds s.inverted_lists c e) ∧ keeps X evaluator e.metadata = true := by
  rw [candidates_eq, List.mem_flatMap]
  constructor
  · rintro ⟨c, hc, he⟩
    obtain ⟨hholds, hkeeps⟩ := mem_kept.1 he
    exact ⟨⟨c, hc, hholds⟩, hkeeps⟩
  · rintro ⟨⟨c, hc, hholds⟩, hkeeps⟩
    exact ⟨c, hc, mem_kept.2 ⟨hholds, hkeeps⟩⟩

/-- A candidate is stored. -/
theorem mem_entries_of_candidates {e : InvertedListEntry X}
    (he : e ∈ s.candidates evaluator probed) : e ∈ s.entries := by
  obtain ⟨⟨c, -, hc⟩, -⟩ := mem_candidates.1 he
  exact Buckets.mem_flatten_iff.2 ⟨c, hc⟩

/-- The candidates of distinct clusters have distinct stamps. -/
theorem Inv.candidates_seqs (h : Inv s) (evaluator : Option X.FilterEvaluator)
    (hprobed : probed.Nodup) :
    ((s.candidates evaluator probed).map (·.seq)).Nodup :=
  (Buckets.nodup_flatMap_buckets h.seqs_nodup hprobed).sublist (List.filter_sublist.map _)

/-- The candidates of distinct clusters have distinct ids. -/
theorem Inv.candidates_ids (h : Inv s) (evaluator : Option X.FilterEvaluator)
    (hprobed : probed.Nodup) :
    ((s.candidates evaluator probed).map (·.id)).Nodup :=
  (Buckets.nodup_flatMap_buckets h.ids_nodup hprobed).sublist (List.filter_sublist.map _)

/-- A loop over the probed clusters whose body adds the kept entries of each one. -/
theorem probe_meets {step : Candidates F32 → ℕ → Fallible (Candidates F32)}
    (hlt : ∀ c ∈ probed, c < s.inverted_lists.length)
    (hstep : ∀ c ∈ probed, ∀ list, s.inverted_lists[c]? = some list → ∀ pre b,
      Filled s R pre b → Meets (step b c)
        (Filled s R (pre ++ list.filter fun e => keeps X evaluator e.metadata)) E) :
    Meets (probed.foldlM step .empty) (Filled s R (s.candidates evaluator probed)) E := by
  apply Meets.foldlM (fun done b => Filled s R (s.candidates evaluator done) b)
  · exact Filled.empty
  intro done c post hsplit b hb
  have hc : c ∈ probed := by
    rw [hsplit]
    exact List.mem_append_right _ List.mem_cons_self
  obtain ⟨list, hlist⟩ : ∃ list, s.inverted_lists[c]? = some list :=
    ⟨_, List.getElem?_eq_getElem (hlt c hc)⟩
  -- One more cluster adds its kept entries to the candidates.
  have hsucc : s.candidates evaluator (done ++ [c]) = s.candidates evaluator done ++
      list.filter fun e => keeps X evaluator e.metadata := by
    rw [candidates_eq, candidates_eq, List.flatMap_append, List.flatMap_singleton, kept_eq hlist]
  rw [hsucc]
  exact hstep c hc list hlist _ b hb

/-- The entries of a probed cluster that the filter keeps are candidates. -/
theorem mem_candidates_of_list {c : ℕ} (hc : c ∈ probed) {list : List (InvertedListEntry X)}
    (hlist : s.inverted_lists[c]? = some list) {e : InvertedListEntry X}
    (he : e ∈ list.filter fun e => keeps X evaluator e.metadata) :
    e ∈ s.candidates evaluator probed := by
  obtain ⟨he, hkeep⟩ := List.mem_filter.1 he
  exact mem_candidates.2 ⟨⟨c, hc, list, hlist, he⟩, hkeep⟩

/-- What follows the cluster loop of an IVF-Flat scan. -/
theorem flatTail_meets {b : Candidates F32} {cands : List (InvertedListEntry X)}
    (hb : Filled s R cands b) (hd : (cands.map (·.seq)).Nodup) :
    Meets (do
        if b.distances.isEmpty then return []
        let chosen ← selectTopkIndices b.distances b.seqs k
        buildHits s chosen b.distances b.addrs : Fallible (List (Hit X)))
      (fun hits => ∃ out, Ranked R cands k out ∧ hits = out.map hitOf) E := by
  obtain ⟨chosen, out, hchosen, hhits, hranked⟩ := hb.hits hd k
  by_cases hempty : b.distances.isEmpty = true
  · -- The early return answers what the selection from no candidates would.
    rw [if_pos hempty]
    have hlen := hranked.length_eq
    rw [hb.isEmpty_iff.1 hempty, List.length_nil, Nat.min_zero, List.length_eq_zero_iff] at hlen
    exact ⟨out, hranked, by rw [hlen]; rfl⟩
  · rw [if_neg hempty]
    simp only [liftM_checked, hchosen, mapError_ok, ok_bind, hhits]
    exact ⟨out, hranked, rfl⟩

/-- The two IVF-Flat scans select among the candidates, under assumptions on the batch of each
probed cluster. -/
theorem scanFlat_meets_of_lists (h : Inv s) (hprobed : probed.Nodup)
    (hlt : ∀ c ∈ probed, c < s.inverted_lists.length)
    (hbatch : ∀ c ∈ probed, ∀ list, s.inverted_lists[c]? = some list →
      ListMeets s query R E (list.filter fun e => keeps X evaluator e.metadata)) :
    Meets (match evaluator with
        | none => scanFlatUnfiltered s query probed k
        | some eval => scanFlatFiltered s eval query probed k)
      (fun hits => ∃ out, Ranked R (s.candidates evaluator probed) k out ∧ hits = out.map hitOf)
      E := by
  have hd := h.candidates_seqs evaluator hprobed
  cases evaluator with
  | none =>
    show Meets (scanFlatUnfiltered s query probed k) _ _
    unfold scanFlatUnfiltered
    apply Meets.bind (probe_meets hlt fun c hc list hlist pre b hb => ?_)
    · intro b hb
      exact flatTail_meets hb hd
    · have hkeep : (list.filter fun e => keeps X none e.metadata) = list :=
        List.filter_eq_self.2 fun _ _ => rfl
      have hlists := hbatch c hc list hlist
      rw [hkeep] at hlists ⊢
      exact scanFlatUnfilteredStep_meets hlists hlist hb
  | some eval =>
    show Meets (scanFlatFiltered s eval query probed k) _ _
    unfold scanFlatFiltered
    apply Meets.bind (probe_meets hlt fun c hc list hlist pre b hb => ?_)
    · intro b hb
      exact flatTail_meets hb hd
    · exact scanFlatFilteredStep_meets (hbatch c hc list hlist) hlist hb

/-- The two IVF-Flat scans select among the candidates. -/
theorem scanFlat_meets (h : Inv s) (hprobed : probed.Nodup)
    (hlt : ∀ c ∈ probed, c < s.inverted_lists.length)
    (hbatch : BatchMeets s query R E (s.candidates evaluator probed)) :
    Meets (match evaluator with
        | none => scanFlatUnfiltered s query probed k
        | some eval => scanFlatFiltered s eval query probed k)
      (fun hits => ∃ out, Ranked R (s.candidates evaluator probed) k out ∧ hits = out.map hitOf)
      E :=
  scanFlat_meets_of_lists h hprobed hlt fun _ hc _ hlist hne =>
    hbatch _ hne fun _ he => mem_candidates_of_list hc hlist he

end Scans

end IqdbIvf
