import IqdbIvf.Lib.Nested
import IqdbIvf.Spec.Hits

/-!
# Probing more clusters

An IVF-Flat search ranks the surviving entries of the probed clusters. More probes extend the list
of probed clusters, so the candidates grow, and the rankings of the candidates are sublists of each
other and of the ranking of all survivors. A true neighbour is therefore found as soon as its
cluster is probed and is not lost again, and no position of the result gets worse
(`probing_keeps_neighbours`).
-/

set_option linter.unusedSectionVars false

namespace IqdbIvf

open Outcome Ranking Selection Rational

variable {F32 : Type} [Arith F32] {X : Crates F32} {s t : IvfIndex X} {query : List F32}
  {dist : List F32 → F32} {evaluator : Option X.FilterEvaluator} {k : ℕ}

namespace IvfIndex

/-- The live entries that satisfy the filter, in insertion order. -/
def survivors (s : IvfIndex X) (evaluator : Option X.FilterEvaluator) :
    List (InvertedListEntry X) :=
  s.live.filter fun e => keeps X evaluator e.metadata

/-- Entries ranked by distance and insertion order. -/
def ranked (dist : List F32 → F32) (es : List (InvertedListEntry X)) :
    List (InvertedListEntry X) :=
  rank Arith.totalCmp (fun e => dist e.vector) (fun e => e.seq) es

/-- The exact top `k` among all live entries that satisfy the filter. -/
def neighbours (s : IvfIndex X) (dist : List F32 → F32) (evaluator : Option X.FilterEvaluator)
    (k : ℕ) : List (InvertedListEntry X) :=
  (ranked dist (s.survivors evaluator)).take k

/-- The hit for an entry at its exact distance. -/
def exactHit (dist : List F32 → F32) (e : InvertedListEntry X) : Hit X :=
  hitOf (e, dist e.vector)

/-- The index after `set_n_probes`. -/
def withProbes (s : IvfIndex X) (n : ℕ) : IvfIndex X :=
  { s with cfg := { s.cfg with n_probes := n } }

end IvfIndex

open IvfIndex

/-- `a` comes before `b` by distance and insertion order. -/
def Closer (dist : List F32 → F32) (a b : InvertedListEntry X) : Prop :=
  Arith.totalCmp (dist a.vector) (dist b.vector) = .lt ∨
    Arith.totalCmp (dist a.vector) (dist b.vector) = .eq ∧ a.seq < b.seq

/-! ## Candidates among the survivors -/

/-- The survivors have distinct stamps. -/
theorem Inv.survivors_seqs (h : Inv s) (evaluator : Option X.FilterEvaluator) :
    ((s.survivors evaluator).map (·.seq)).Nodup := by
  have hlive : (s.live.map (·.seq)).Nodup := ((s.live_perm.map _).nodup_iff).2 h.seqs_nodup
  exact hlive.sublist (List.filter_sublist.map _)

/-- A survivor is an entry of some cluster that satisfies the filter. -/
theorem mem_survivors {e : InvertedListEntry X} :
    e ∈ s.survivors evaluator ↔
      (∃ c, Buckets.Holds s.inverted_lists c e) ∧ keeps X evaluator e.metadata = true := by
  unfold survivors
  rw [List.mem_filter, s.live_perm.mem_iff]
  exact and_congr_left' Buckets.mem_flatten_iff

/-- The candidates of distinct clusters are part of the survivors, and of the candidates of more
clusters. -/
theorem Inv.candidates_subperm (h : Inv s) {probed probed' : List ℕ} (hnodup : probed.Nodup)
    (hsub : probed ⊆ probed') :
    (s.candidates evaluator probed).Subperm (s.candidates evaluator probed') ∧
      (s.candidates evaluator probed).Subperm (s.survivors evaluator) := by
  have hcands : (s.candidates evaluator probed).Nodup :=
    List.Nodup.of_map _ (h.candidates_seqs evaluator hnodup)
  constructor
  · apply List.subperm_of_subset hcands
    intro e he
    obtain ⟨⟨c, hc, hce⟩, hkeeps⟩ := mem_candidates.1 he
    exact mem_candidates.2 ⟨⟨c, hsub hc, hce⟩, hkeeps⟩
  · apply List.subperm_of_subset hcands
    intro e he
    obtain ⟨⟨c, -, hce⟩, hkeeps⟩ := mem_candidates.1 he
    exact mem_survivors.2 ⟨⟨c, hce⟩, hkeeps⟩

/-- A survivor is a candidate when its cluster is probed. -/
theorem Inv.mem_candidates_iff (h : Inv s) {probed : List ℕ} {c : ℕ} {e : InvertedListEntry X}
    (hce : Buckets.Holds s.inverted_lists c e) (he : e ∈ s.survivors evaluator) :
    e ∈ s.candidates evaluator probed ↔ c ∈ probed := by
  rw [mem_candidates]
  constructor
  · rintro ⟨⟨c', hc', hce'⟩, -⟩
    rwa [Buckets.Holds.unique h.seqs_nodup hce hce' rfl]
  · exact fun hc => ⟨⟨c, hc, hce⟩, (mem_survivors.1 he).2⟩

/-- With all clusters probed, the candidates are the survivors. -/
theorem Inv.candidates_perm_survivors (h : Inv s) {probed : List ℕ} (hnodup : probed.Nodup)
    (hall : ∀ c < s.cfg.n_clusters, c ∈ probed) :
    (s.candidates evaluator probed).Perm (s.survivors evaluator) := by
  rw [List.perm_ext_iff_of_nodup (List.Nodup.of_map _ (h.candidates_seqs evaluator hnodup))
    (List.Nodup.of_map _ (h.survivors_seqs evaluator))]
  intro e
  rw [mem_candidates, mem_survivors]
  apply and_congr_left'
  constructor
  · rintro ⟨c, -, hce⟩
    exact ⟨c, hce⟩
  · rintro ⟨c, hce⟩
    obtain ⟨list, hlist, -⟩ := id hce
    have hlt := (List.getElem?_eq_some_iff.1 hlist).1
    rw [h.lists_length] at hlt
    exact ⟨c, hall c hlt, hce⟩

/-- A true neighbour is among the first `k` candidates when its cluster is probed. -/
theorem Inv.mem_found_iff (h : Inv s) {probed : List ℕ} (hnodup : probed.Nodup) {c : ℕ}
    {e : InvertedListEntry X} (hce : Buckets.Holds s.inverted_lists c e)
    (he : e ∈ s.neighbours dist evaluator k) :
    e ∈ (ranked dist (s.candidates evaluator probed)).take k ↔ c ∈ probed := by
  have hseqs := h.survivors_seqs evaluator
  have hsurvivor : e ∈ s.survivors evaluator := mem_rank.1 (List.mem_of_mem_take he)
  rw [← h.mem_candidates_iff hce hsurvivor]
  constructor
  · exact fun hfound => mem_rank.1 (List.mem_of_mem_take hfound)
  · intro hcand
    have hsub : (ranked dist (s.candidates evaluator probed)).Sublist
        (ranked dist (s.survivors evaluator)) :=
      rank_sublist hseqs (h.candidates_subperm hnodup (List.Subset.refl _)).2
    have hranked : (ranked dist (s.survivors evaluator)).Nodup :=
      ((rank_perm _).nodup_iff).2 (List.Nodup.of_map _ hseqs)
    exact mem_take_of_sublist hsub hranked (mem_rank.2 hcand) he

/-- What is found is live and satisfies the filter. -/
theorem Inv.survivor_of_found (h : Inv s) {probed : List ℕ} (hnodup : probed.Nodup)
    {e : InvertedListEntry X} (he : e ∈ (ranked dist (s.candidates evaluator probed)).take k) :
    e ∈ s.survivors evaluator := by
  have hcand : e ∈ s.candidates evaluator probed := mem_rank.1 (List.mem_of_mem_take he)
  exact (h.candidates_subperm hnodup (List.Subset.refl _)).2.subset hcand

/-- Among more candidates, no position of the result holds a worse one. -/
theorem Inv.found_le (h : Inv s) {probed probed' : List ℕ} (hnodup : probed.Nodup)
    (hnodup' : probed'.Nodup) (hsub : probed ⊆ probed') {i : ℕ} {e : InvertedListEntry X}
    (he : ((ranked dist (s.candidates evaluator probed)).take k)[i]? = some e) :
    ∃ e', ((ranked dist (s.candidates evaluator probed')).take k)[i]? = some e' ∧
      (e' = e ∨ Closer dist e' e) := by
  have hseqs := h.candidates_seqs evaluator hnodup'
  exact le_of_sublist (rank_sublist hseqs (h.candidates_subperm hnodup hsub).1)
    (pairwise_rank hseqs) he

/-! ## The two passes -/

section Passes

variable {score : List F32 → List F32 → F32} {params : SearchParams X}

/-- Pass 1 returns the clusters with the nearest centroids, nearest first. -/
theorem Inv.rankCentroids_eq (h : Inv s) (htrained : s.trained = true)
    (hscore : ScoresEach X s.metric s.dim fun query v => some (score query v))
    (hq : query.length = s.dim) :
    rankCentroids s query = .ok (s.probes fun v => orient s.metric (score query v)) := by
  have hcs := h.centroids htrained
  have hne : s.centroids ≠ [] := by
    have hlen := hcs.length_eq
    have hpos := h.valid.one_le_n_clusters
    rw [← List.length_pos_iff]
    omega
  have hbatch := (orientedBatch_meets hscore hq hcs.dims hne).mono (fun _ => id)
    fun _ ⟨v, _, hnone⟩ => (Option.some_ne_none _ hnone : False)
  have hmeets := rankCentroids_meets (E := fun _ => False) hbatch
  obtain ⟨probed, hprobed, hspec⟩ := returns_iff.1 hmeets
  obtain ⟨centroids, hbest, rfl⟩ := probed_iff.1 hspec
  obtain ⟨centroids', hbest', hprobes⟩ := best_centroids s
    (fun v => (rfl : exactScore s.metric (fun query v => some (score query v)) query v =
      some (orient s.metric (score query v))))
  rw [hbest] at hbest'
  obtain rfl := Option.some.inj hbest'
  rw [hprobed, hprobes]

/-- An IVF-Flat search returns the first `k` candidates of the probed clusters, at their exact
distances. -/
theorem Inv.search_flat (h : Inv s) (htrained : s.trained = true) (hflat : s.cfg.use_pq = false)
    (hscore : ScoresEach X s.metric s.dim fun query v => some (score query v))
    (hq : query.length = s.dim) (hmetric : params.metric = s.metric)
    (hfilter : evaluatorOf X params.filter = .ok evaluator) :
    s.search query params = .ok (((ranked (fun v => orient s.metric (score query v))
      (s.candidates evaluator (s.probes fun v => orient s.metric (score query v)))).take
        params.k.toNat).map (exactHit fun v => orient s.metric (score query v))) := by
  rcases search_cases_of_valid htrained hq hmetric hfilter with ⟨hstop, hsearch⟩ | hr
  · rw [hsearch]
    rcases hstop with hk | hlive
    · rw [hk]
      rfl
    · have hnil : ∀ probed, s.candidates evaluator probed = [] := by
        intro probed
        apply List.eq_nil_iff_forall_not_mem.2
        intro e he
        have hmem := mem_entries_of_candidates he
        rw [List.length_eq_zero_iff.1 (h.live_count.symm.trans hlive)] at hmem
        exact List.not_mem_nil hmem
      rw [hnil]
      unfold ranked rank
      rw [sort_nil, List.take_nil]
      rfl
  · rw [search_eq_ok_iff h hscore hr]
    have hexact : ∀ v, exactScore s.metric (fun query v => some (score query v)) query v =
        some (orient s.metric (score query v)) := fun v => rfl
    obtain ⟨centroids, hbest, hprobes⟩ := best_centroids s hexact
    rw [answer_of_probed hbest, hprobes, plan_of_flat hflat, Option.bind_some, Plan.run_direct,
      best_of_total fun e _ => hexact e.vector, Option.map_some, List.map_map]
    rfl

end Passes

/-! ## More probes -/

/-- The setter takes every number of probes up to the number of clusters. -/
theorem Inv.setNProbes_ok (h : Inv s) {n : ℕ} (hpos : 1 ≤ n) (hn : n ≤ s.cfg.n_clusters) :
    call (.setNProbes n) s = .ok (.ok (), s.withProbes n) := by
  obtain ⟨r, t, hcall, htransition⟩ := call_transition h (.setNProbes n : Op X)
  rw [hcall]
  cases htransition with
  | setNProbesZero => exact absurd hpos (by decide)
  | setNProbesTooMany _ hlt => exact absurd hn (Nat.not_le_of_lt hlt)
  | nProbesSet => rfl

/-- The probed clusters for fewer probes come first in those for more. -/
theorem probes_prefix (s : IvfIndex X) (dist : List F32 → F32) {p p' : ℕ} (hle : p ≤ p') :
    (s.withProbes p).probes dist <+: (s.withProbes p').probes dist :=
  (List.take_prefix_take_left hle).map Prod.snd

/-- All clusters are probed when there are as many probes as clusters. -/
theorem Inv.mem_probes (h : Inv s) (htrained : s.trained = true)
    (hall : s.cfg.n_probes = s.cfg.n_clusters) (dist : List F32 → F32) :
    ∀ c < s.cfg.n_clusters, c ∈ s.probes dist := by
  have hlen := (h.centroids htrained).length_eq
  intro c hc
  unfold IvfIndex.probes
  rw [List.take_of_length_le (by rw [length_rank, List.length_zipIdx, hlen, hall])]
  have hcluster : c < s.centroids.length := by omega
  refine List.mem_map.2 ⟨(s.centroids[c], c), mem_rank.2 ?_, rfl⟩
  rw [List.mem_zipIdx_iff_getElem?]
  exact List.getElem?_eq_getElem hcluster

/-- Raising the number of probes of an IVF-Flat index extends the list of probed clusters, keeps the
true neighbours that were found, and makes no hit worse; a true neighbour is found exactly when its
cluster is probed, and all of them are found with as many probes as clusters. The hits of both
searches are those of entries that are live and satisfy the filter. -/
theorem probing_keeps_neighbours (hs : Reachable s) (htrained : s.trained = true)
    (hflat : s.cfg.use_pq = false) {score : List F32 → List F32 → F32}
    (hscore : ScoresEach X s.metric s.dim fun query v => some (score query v)) {query : List F32}
    (hq : query.length = s.dim) {params : SearchParams X} (hmetric : params.metric = s.metric)
    {evaluator : Option X.FilterEvaluator} (hfilter : evaluatorOf X params.filter = .ok evaluator)
    {p p' : ℕ} (hp : 1 ≤ p) (hle : p ≤ p') (hp' : p' ≤ s.cfg.n_clusters) :
    let dist := fun v => orient s.metric (score query v)
    let T := s.neighbours dist evaluator params.k.toNat
    ∃ (t t' : IvfIndex X) (probed probed' : List ℕ) (found found' : List (InvertedListEntry X)),
      call (.setNProbes p) s = .ok (.ok (), t) ∧ call (.setNProbes p') s = .ok (.ok (), t') ∧
      rankCentroids t query = .ok probed ∧ rankCentroids t' query = .ok probed' ∧
      t.search query params = .ok (found.map (exactHit dist)) ∧
      t'.search query params = .ok (found'.map (exactHit dist)) ∧
      (∀ e ∈ found, e ∈ s.survivors evaluator) ∧ (∀ e ∈ found', e ∈ s.survivors evaluator) ∧
      probed.length = p ∧ probed <+: probed' ∧
      (∀ c e, Buckets.Holds s.inverted_lists c e → e ∈ T → (e ∈ found ↔ c ∈ probed)) ∧
      (∀ e ∈ T, e ∈ found → e ∈ found') ∧
      (∀ (i : ℕ) e, found[i]? = some e →
        ∃ e', found'[i]? = some e' ∧ (e' = e ∨ Closer dist e' e)) ∧
      (p' = s.cfg.n_clusters → found' = T) := by
  intro dist T
  have h := hs.inv
  have hset := h.setNProbes_ok hp (hle.trans hp')
  have hset' := h.setNProbes_ok (hp.trans hle) hp'
  have ht := (transition_of_call h hset).inv h
  have ht' := (transition_of_call h hset').inv h
  obtain ⟨hnodup, hlen⟩ := ht.probes_spec htrained dist
  obtain ⟨hnodup', -⟩ := ht'.probes_spec htrained dist
  have hmore := probes_prefix s dist hle
  refine ⟨_, _, _, _, _, _, hset, hset', ht.rankCentroids_eq htrained hscore hq,
    ht'.rankCentroids_eq htrained hscore hq,
    ht.search_flat htrained hflat hscore hq hmetric hfilter,
    ht'.search_flat htrained hflat hscore hq hmetric hfilter,
    fun e he => h.survivor_of_found hnodup he, fun e he => h.survivor_of_found hnodup' he,
    hlen, hmore, ?_, ?_, ?_, ?_⟩
  · intro c e hce he
    exact h.mem_found_iff hnodup hce he
  · intro e he hfound
    obtain ⟨⟨c, hce⟩, -⟩ := mem_survivors.1 (mem_rank.1 (List.mem_of_mem_take he))
    have hc := (h.mem_found_iff hnodup hce he).1 hfound
    exact (h.mem_found_iff hnodup' hce he).2 (hmore.subset hc)
  · intro i e he
    exact h.found_le hnodup hnodup' hmore.subset he
  · intro hall
    have hperm : (s.candidates evaluator ((s.withProbes p').probes dist)).Perm
        (s.survivors evaluator) :=
      h.candidates_perm_survivors hnodup' (ht'.mem_probes htrained hall dist)
    exact congrArg (List.take _) (rank_eq_of_perm (h.candidates_seqs evaluator hnodup') hperm)

/-- The two-cluster index with one probe and with two. -/
theorem flatState_probing :
    (flatState.cfg.n_clusters = 2 ∧ flatState.items.length = 2) ∧
    let dist := fun v => orient flatState.metric (manhattan [4] v)
    let T := flatState.neighbours dist none 1
    ∃ (t t' : IvfIndex crates) (probed probed' : List ℕ)
      (found found' : List (InvertedListEntry crates)),
      call (.setNProbes 1) flatState = .ok (.ok (), t) ∧
      call (.setNProbes 2) flatState = .ok (.ok (), t') ∧
      rankCentroids t [4] = .ok probed ∧ rankCentroids t' [4] = .ok probed' ∧
      t.search [4] ⟨1, .manhattan, none⟩ = .ok (found.map (exactHit dist)) ∧
      t'.search [4] ⟨1, .manhattan, none⟩ = .ok (found'.map (exactHit dist)) ∧
      (∀ e ∈ found, e ∈ flatState.survivors none) ∧ (∀ e ∈ found', e ∈ flatState.survivors none) ∧
      probed.length = 1 ∧ probed <+: probed' ∧
      (∀ c e, Buckets.Holds flatState.inverted_lists c e → e ∈ T → (e ∈ found ↔ c ∈ probed)) ∧
      (∀ e ∈ T, e ∈ found → e ∈ found') ∧
      (∀ (i : ℕ) e, found[i]? = some e →
        ∃ e', found'[i]? = some e' ∧ (e' = e ∨ Closer dist e' e)) ∧
      (2 = flatState.cfg.n_clusters → found' = T) := by
  have hdim : flatState.dim = 1 := by decide +kernel
  have hmetric : flatState.metric = .manhattan := by decide +kernel
  have hscore : ScoresEach crates flatState.metric flatState.dim
      fun query v => some (manhattan query v) := manhattan_scoresEach hmetric
  have hclusters : flatState.cfg.n_clusters = 2 := by decide +kernel
  have hq : [(4 : ℚ)].length = flatState.dim := hdim.symm
  let params : SearchParams crates := ⟨1, .manhattan, none⟩
  have hparams : params.metric = flatState.metric := hmetric.symm
  have hfilter : evaluatorOf crates params.filter = .ok none := rfl
  exact ⟨⟨hclusters, by decide +kernel⟩, probing_keeps_neighbours flatState_reachable
    (by decide +kernel) (by decide +kernel) hscore hq hparams hfilter (Nat.le_refl 1)
    (Nat.le_succ 1) (Nat.le_of_eq hclusters.symm)⟩

end IqdbIvf
