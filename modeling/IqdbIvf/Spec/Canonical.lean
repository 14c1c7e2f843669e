import IqdbIvf.Spec.Retraining

/-!
# The lists that a retraining leaves

A successful retraining distributes the items, in insertion order and under their new codes, over
the clusters of the new centroids (`placeAll_drained_lists`). Nothing of the old lists is left in
this but the order of the stamps, so indexes with the same items are retrained to the same lists, up
to the names of the stamps, and a second retraining changes nothing (`retrain_canonical`).
-/

set_option linter.unusedSectionVars false

namespace IqdbIvf

open Outcome Buckets Rational

variable {F32 : Type} [Arith F32] {X : Crates F32} {s t : IvfIndex X}

/-! ## The lists that a retraining leaves -/

/-- Entries distributed over the clusters of their vectors. -/
def clustered (n_clusters : ℕ) (cs : List (List F32)) (es : List (InvertedListEntry X)) :
    List (List (InvertedListEntry X)) :=
  (List.range n_clusters).map fun c => es.filter fun e => nearest cs e.vector = c

/-- The lists after entries are placed into an emptied index. -/
theorem Inv.placeAll_drained_lists (h : Inv s) (cs : List (List F32))
    (pq : Option X.ProductQuantizer) (es : List (InvertedListEntry X)) :
    ((s.drained cs pq).placeAll es).inverted_lists =
      clustered s.cfg.n_clusters cs (es.map (s.drained cs pq).recode) := by
  have hempty : (s.drained cs pq).inverted_lists = List.replicate s.cfg.n_clusters [] := by
    rw [← h.lists_length]
    exact List.map_const'
  rw [IvfIndex.placeAll_eq]
  show (es.map (s.drained cs pq).recode).foldl
    (Buckets.place fun e => nearest cs e.vector) (s.drained cs pq).inverted_lists = _
  -- Each list ends up with the entries of its cluster, in the order in which they were placed.
  rw [hempty, foldl_place]
  unfold clustered
  apply List.ext_getElem?
  intro c
  rw [List.getElem?_mapIdx, List.getElem?_map, List.getElem?_replicate]
  by_cases hc : c < s.cfg.n_clusters
  · rw [if_pos hc, List.getElem?_range hc]
    rfl
  · have hrange : (List.range s.cfg.n_clusters)[c]? = none := by
      rw [List.getElem?_eq_none_iff, List.length_range]
      exact Nat.le_of_not_lt hc
    rw [if_neg hc, hrange]
    rfl

/-- An entry under another stamp. -/
def InvertedListEntry.renamed (ρ : ℕ → ℕ) (e : InvertedListEntry X) : InvertedListEntry X :=
  { e with seq := ρ e.seq }

/-- Renaming the stamps does not move entries to other clusters. -/
theorem clustered_renamed (n_clusters : ℕ) (cs : List (List F32)) (ρ : ℕ → ℕ)
    (es : List (InvertedListEntry X)) :
    clustered n_clusters cs (es.map (·.renamed ρ)) =
      (clustered n_clusters cs es).map (List.map (·.renamed ρ)) := by
  unfold clustered
  rw [List.map_map]
  apply List.map_congr_left
  intro c _
  rw [List.filter_map]
  rfl

/-- The working set looks at the cap and the seed only. -/
theorem workingSet_congr {cfg cfg' : IvfConfig} (h : cfg.SameTraining cfg')
    (vectors : List (List F32)) : workingSet cfg vectors = workingSet cfg' vectors := by
  unfold workingSet
  rw [h.training_sample_size, h.seed]

/-- The vectors of the live entries are those of the items. -/
theorem live_vectors_eq (s : IvfIndex X) : s.live.map (·.vector) = s.items.map (·.vector) := by
  unfold IvfIndex.items
  rw [List.map_map]
  rfl

/-- The stages of a retraining depend on the items, and on what the configuration says of
training. -/
theorem Retrains.congr (hs : Inv s) (ht : Inv t) (hst : s.trained = true) (htt : t.trained = true)
    (hdim : s.dim = t.dim) (hcfg : s.cfg.SameTraining t.cfg) (hitems : s.items = t.items)
    {cs : List (List F32)} {pq : Option X.ProductQuantizer} (h : Retrains s cs pq) :
    Retrains t cs pq := by
  have hvectors : s.live.map (·.vector) = t.live.map (·.vector) := by
    rw [live_vectors_eq, live_vectors_eq, hitems]
  have hsample : s.sample = t.sample := by
    unfold IvfIndex.sample
    rw [workingSet_congr hcfg, hvectors]
  have htrainPq : trainPq X s.cfg s.sample = trainPq X t.cfg t.sample := by
    unfold trainPq
    rw [hcfg.pq_subvectors, hcfg.seed, hsample]
  constructor
  case kmeans =>
    rw [← h.kmeans]
    unfold IvfIndex.recluster
    rw [hdim, hcfg.n_clusters, hcfg.seed, hsample]
  case trains =>
    rcases h.trains with ⟨huse, q, hq, rfl⟩ | ⟨huse, rfl⟩
    · exact .inl ⟨hcfg.use_pq ▸ huse, q, htrainPq ▸ hq, rfl⟩
    · have huse' : t.cfg.use_pq = false := hcfg.use_pq ▸ huse
      refine .inr ⟨huse', ?_⟩
      rw [(hs.pq_eq_none_iff hst).2 huse, (ht.pq_eq_none_iff htt).2 huse']
  case encodes =>
    intro e he
    have hmem : e.vector ∈ s.live.map (·.vector) := by
      rw [hvectors]
      exact List.mem_map_of_mem he
    obtain ⟨e', he', hvector⟩ := List.mem_map.1 hmem
    have hcode := h.encodes e' he'
    rw [hvector] at hcode
    exact hcode

/-- Two lists of live entries with the same items are renamings of each other, once their codes are
those of one quantizer. -/
theorem Inv.exists_renaming_live (hs : Inv s) (ht : Inv t) (hitems : s.items = t.items)
    (cs : List (List F32)) (pq : Option X.ProductQuantizer) :
    ∃ ρ, StrictMonoOn ρ {n | n ∈ s.live.map (·.seq)} ∧ t.live.map (t.drained cs pq).recode =
      (s.live.map (s.drained cs pq).recode).map (·.renamed ρ) := by
  have hlen : s.live.length = t.live.length := by
    have hlen := congrArg List.length hitems
    unfold IvfIndex.items at hlen
    rwa [List.length_map, List.length_map] at hlen
  obtain ⟨ρ, hmono, hrename⟩ := Ranking.exists_renaming (List.pairwise_map.2 hs.live_sorted)
    (List.pairwise_map.2 ht.live_sorted) (by rw [List.length_map, List.length_map, hlen])
  refine ⟨ρ, hmono, ?_⟩
  apply List.ext_getElem
  · rw [List.length_map, List.length_map, List.length_map, hlen]
  intro i hi hi'
  rw [List.length_map] at hi
  rw [List.getElem_map, List.getElem_map, List.getElem_map]
  have his : i < s.live.length := hlen ▸ hi
  -- The entries at a position have one item, and stamps that correspond.
  have hitem : s.live[i].item = t.live[i].item := by
    have hget : s.items[i]? = t.items[i]? := by rw [hitems]
    unfold IvfIndex.items at hget
    rw [List.getElem?_map, List.getElem?_map, List.getElem?_eq_getElem his,
      List.getElem?_eq_getElem hi] at hget
    exact Option.some.inj hget
  have hseq : t.live[i].seq = ρ s.live[i].seq := by
    have hget : (t.live.map (·.seq))[i]? = ((s.live.map (·.seq)).map ρ)[i]? := by rw [hrename]
    rw [List.getElem?_map, List.getElem?_map, List.getElem?_map, List.getElem?_eq_getElem his,
      List.getElem?_eq_getElem hi] at hget
    exact Option.some.inj hget
  obtain ⟨hid, hvector, hmetadata⟩ := Item.mk.inj hitem
  unfold IvfIndex.recode InvertedListEntry.renamed
  rw [hseq, ← hid, ← hvector, ← hmetadata]
  rfl

/-- Placing entries overwrites their codes. -/
theorem IvfIndex.placeAll_recode (s : IvfIndex X) (es : List (InvertedListEntry X)) :
    s.placeAll (es.map s.recode) = s.placeAll es := by
  have hrecode : (es.map s.recode).map s.recode = es.map s.recode := by
    rw [List.map_map]
    rfl
  have hinsert : (es.map s.recode).foldl
      (fun m e => m.insert e.id (nearest s.centroids e.vector)) s.id_to_cluster =
      es.foldl (fun m e => m.insert e.id (nearest s.centroids e.vector)) s.id_to_cluster := by
    rw [List.foldl_map]
    rfl
  rw [IvfIndex.placeAll_eq, IvfIndex.placeAll_eq, hrecode, hinsert, List.length_map]

/-- Retraining an index that has just been retrained changes nothing. -/
theorem Inv.retrain_retrained (h : Inv s) (htrained : s.trained = true) (hlive : s.live_count ≠ 0)
    {cs : List (List F32)} {pq : Option X.ProductQuantizer} (hr : Retrains s cs pq) :
    call (X := X) .retrain ((s.drained cs pq).placeAll s.live) =
      .ok (.ok (), (s.drained cs pq).placeAll s.live) := by
  have hcs := h.centroids_of_recluster hr.kmeans
  have hinv := (h.placeAll_drained htrained hcs hr.trains (List.Sublist.refl _) hr.encodes).1
  have hlive' := h.live_placeAll htrained hcs hr.trains (List.Sublist.refl _) hr.encodes
  have hframe := IvfIndex.placeAll_eq (s.drained cs pq) s.live
  generalize ht : (s.drained cs pq).placeAll s.live = t at hinv hlive' hframe
  have hitems : s.items = t.items := by
    unfold IvfIndex.items
    rw [hlive', List.map_map]
    rfl
  have htt : t.trained = true := by
    rw [hframe]
    exact htrained
  have hdim : s.dim = t.dim := by
    rw [hframe]
    rfl
  have hcfg : s.cfg = t.cfg := by
    rw [hframe]
    rfl
  have hcount : t.live_count ≠ 0 := by
    rw [← hinv.length_items, ← hitems, h.length_items]
    exact hlive
  have hr' : Retrains t cs pq :=
    hr.congr h hinv htrained htt hdim (hcfg ▸ .refl _) hitems
  -- The second retraining goes through the same stages, over the same live entries.
  rw [hinv.retrain_of_retrains htt hcount hr']
  -- Emptying the lists leaves what it left before, and codes do not change any more.
  have hdrained : t.drained cs pq = s.drained cs pq := by
    have hlists : t.inverted_lists.map (fun _ => []) =
        (s.inverted_lists.map fun _ => ([] : List (InvertedListEntry X))) := by
      rw [List.map_const', List.map_const', hinv.lists_length, h.lists_length, hcfg]
    unfold IvfIndex.drained
    rw [hlists, hframe]
    rfl
  rw [hdrained, hlive', IvfIndex.placeAll_recode, ht]

/-- Two trained indexes with the same items in insertion order, and configurations that train alike,
are retrained both or neither, to the same model and to the same lists up to the names of the
stamps; and a second retraining changes nothing. -/
theorem retrain_canonical (hs : Reachable s) (ht : Reachable t) (hst : s.trained = true)
    (htt : t.trained = true) (hdim : s.dim = t.dim) (hcfg : s.cfg.SameTraining t.cfg)
    (hitems : s.items = t.items) (hne : s.items ≠ []) :
    ((∃ s', call (X := X) .retrain s = .ok (.ok (), s')) ↔
      ∃ t', call (X := X) .retrain t = .ok (.ok (), t')) ∧
    (∀ s' t', call (X := X) .retrain s = .ok (.ok (), s') →
      call (X := X) .retrain t = .ok (.ok (), t') →
        s'.centroids = t'.centroids ∧ s'.pq = t'.pq ∧
        ∃ ρ, StrictMonoOn ρ {n | n ∈ s'.entries.map (·.seq)} ∧
          t'.inverted_lists = s'.inverted_lists.map (List.map (·.renamed ρ))) ∧
    ∀ u u' : IvfIndex X, Reachable u → call .retrain u = .ok (.ok (), u') →
      call .retrain u' = .ok (.ok (), u') := by
  have h := hs.inv
  have h' := ht.inv
  have hlive : s.live_count ≠ 0 := by
    rw [← h.length_items, ← Nat.pos_iff_ne_zero]
    exact List.length_pos_iff.2 hne
  have hlive' : t.live_count ≠ 0 := by
    rw [← h'.length_items, ← hitems, h.length_items]
    exact hlive
  refine ⟨?_, ?_, ?_⟩
  · rw [h.retrain_returns_ok_iff hst hlive, h'.retrain_returns_ok_iff htt hlive',
      h.retrainable_iff hst hlive, h'.retrainable_iff htt hlive']
    constructor
    · rintro ⟨cs, pq, hr⟩
      exact ⟨cs, pq, hr.congr h h' hst htt hdim hcfg hitems⟩
    · rintro ⟨cs, pq, hr⟩
      exact ⟨cs, pq, hr.congr h' h htt hst hdim.symm hcfg.symm hitems.symm⟩
  · intro s' t' hcall hcall'
    obtain ⟨cs, pq, hr, rfl⟩ := (h.retrain_ok_iff hst hlive).1 hcall
    obtain ⟨cs', pq', hr', rfl⟩ := (h'.retrain_ok_iff htt hlive').1 hcall'
    -- The stages of the first are those of the second, so the models are equal.
    have hr'' := hr.congr h h' hst htt hdim hcfg hitems
    obtain ⟨rfl, rfl⟩ := hr''.unique hr'.kmeans hr'.trains
    obtain ⟨ρ, hmono, hrename⟩ := h.exists_renaming_live h' hitems cs pq
    have hcs := h.centroids_of_recluster hr.kmeans
    have hperm := (h.placeAll_drained hst hcs hr.trains (List.Sublist.refl _) hr.encodes).2
    refine ⟨?_, ?_, ρ, ?_, ?_⟩
    · rw [IvfIndex.placeAll_eq, IvfIndex.placeAll_eq]
      rfl
    · rw [IvfIndex.placeAll_eq, IvfIndex.placeAll_eq]
      rfl
    · -- The stamps that are left are those of the live entries.
      have hstamps : {n | n ∈ ((s.drained cs pq).placeAll s.live).entries.map (·.seq)} =
          {n | n ∈ s.live.map (·.seq)} := by
        ext n
        rw [Set.mem_ofPred_eq, Set.mem_ofPred_eq, (hperm.map (·.seq)).mem_iff, List.map_map]
        rfl
      rw [hstamps]
      exact hmono
    · rw [h.placeAll_drained_lists, h'.placeAll_drained_lists, hrename, clustered_renamed,
        hcfg.n_clusters]
  · intro u u' hu hcall
    have hinv := hu.inv
    cases htrained : u.trained with
    | false =>
      cases transition_of_call hinv hcall with
      | retrainEmpty htrue _ =>
        rw [htrained] at htrue
        cases htrue
      | retrained _ _ htrue _ _ _ _ =>
        rw [htrained] at htrue
        cases htrue
    | true =>
      by_cases hzero : u.live_count = 0
      · cases transition_of_call hinv hcall with
        | retrainEmpty => exact hcall
        | retrained _ _ _ hne _ _ _ => exact absurd hzero hne
      · obtain ⟨cs, pq, hr, rfl⟩ := (hinv.retrain_ok_iff htrained hzero).1 hcall
        exact hinv.retrain_retrained htrained hzero hr

/-- The items of the two-cluster index, by another history. -/
def otherState : IvfIndex crates := flatIndex.after [.train ⟨[[5], [6], [7]], by decide⟩,
  .insert 8 [2] none, .insert 4 [9] (some 5), .retrain, .insert 3 [2] (some 5), .delete 8]

/-- This state is reachable. -/
theorem otherState_reachable : Reachable otherState := (Reachable.new flatIndex_new).after _

/-- Two histories of the two-cluster index that end in the same items. -/
theorem flatState_retrain_canonical :
    (flatState.items = otherState.items ∧ flatState.items ≠ [] ∧
      flatState.centroids ≠ otherState.centroids) ∧
    ((∃ s', call .retrain flatState = .ok (.ok (), s')) ↔
      ∃ t', call .retrain otherState = .ok (.ok (), t')) ∧
    (∀ s' t', call .retrain flatState = .ok (.ok (), s') →
      call .retrain otherState = .ok (.ok (), t') →
        s'.centroids = t'.centroids ∧ s'.pq = t'.pq ∧
        ∃ ρ, StrictMonoOn ρ {n | n ∈ s'.entries.map (·.seq)} ∧
          t'.inverted_lists = s'.inverted_lists.map (List.map (·.renamed ρ))) ∧
    ∀ u u' : IvfIndex crates, Reachable u → call .retrain u = .ok (.ok (), u') →
      call .retrain u' = .ok (.ok (), u') := by
  have hcfg : flatState.cfg = otherState.cfg := by decide +kernel
  have hsame : flatState.cfg.SameTraining otherState.cfg := by
    rw [hcfg]
    exact .refl _
  exact ⟨by decide +kernel, retrain_canonical flatState_reachable otherState_reachable
    (by decide +kernel) (by decide +kernel) (by decide +kernel) hsame (by decide +kernel)
    (by decide +kernel)⟩

end IqdbIvf
