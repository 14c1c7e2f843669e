import IqdbIvf.Spec.Rational

/-!
# The representation of every reachable state

The invariant, restated through the fields of the source: how the lists, the id map, the count and
the stamps agree (`reachable_representation`), and that every entry was written under the model that
the index has now (`reachable_model_current`).
-/

set_option linter.unusedSectionVars false

namespace IqdbIvf

open Outcome Buckets Rational

variable {F32 : Type} [Arith F32] {X : Crates F32} {s t : IvfIndex X}

/-- The agreement of the redundant parts of an index. -/
structure Representation (s : IvfIndex X) : Prop where
  /-- There is a list per cluster. -/
  lists : s.inverted_lists.length = s.cfg.n_clusters
  /-- After training there is a centroid per cluster, of the dimension of the index. -/
  centroids : s.trained = true →
    s.centroids.length = s.cfg.n_clusters ∧ ∀ c ∈ s.centroids, c.length = s.dim
  /-- The id map points at the list that has exactly one entry with the id, when no other has one.
  -/
  id_map : ∀ id c, s.id_to_cluster.lookup id = some c ↔
    (∃ list, s.inverted_lists[c]? = some list ∧ (list.filter fun e => e.id = id).length = 1) ∧
      ∀ j list, j ≠ c → s.inverted_lists[j]? = some list → ∀ e ∈ list, e.id ≠ id
  /-- The live count is the number of keys of the id map. -/
  live_keys : s.live_count = s.id_to_cluster.keys.card
  /-- The live count is the number of entries in the lists. -/
  live_entries : s.live_count = (s.inverted_lists.map List.length).sum
  /-- The live count is the sum of the reported cluster sizes. -/
  live_stats : s.trained = true → s.live_count = s.clusterStats.cluster_sizes.sum
  /-- No two entries have one stamp. -/
  seqs : (s.inverted_lists.flatten.map (·.seq)).Nodup
  /-- The stamps are below the counter. -/
  seq_lt : ∀ e ∈ s.inverted_lists.flatten, e.seq < s.next_seq
  /-- The counter is a `u64`. -/
  next_seq_lt : s.next_seq < 2^64
  /-- Every stored vector has the dimension of the index. -/
  dims : ∀ e ∈ s.inverted_lists.flatten, e.vector.length = s.dim
  /-- The probe count is within its bounds. -/
  n_probes : 1 ≤ s.cfg.n_probes ∧ s.cfg.n_probes ≤ s.cfg.n_clusters

/-- In a list without repeated ids, an id occurs once when it occurs. -/
theorem length_filter_id {list : List (InvertedListEntry X)} (hd : (list.map (·.id)).Nodup)
    {e : InvertedListEntry X} (he : e ∈ list) :
    (list.filter fun x => x.id = e.id).length = 1 := by
  have hcount : (list.map (·.id)).count e.id = 1 :=
    List.count_eq_one_of_mem hd (List.mem_map_of_mem he)
  rw [List.count, List.countP_map, List.countP_eq_length_filter] at hcount
  rw [← hcount]
  congr 1

/-- The id map, in terms of the lists. -/
theorem Inv.id_map (h : Inv s) (id : X.VectorId) (c : ℕ) :
    s.id_to_cluster.lookup id = some c ↔
      (∃ list, s.inverted_lists[c]? = some list ∧ (list.filter fun e => e.id = id).length = 1) ∧
        ∀ j list, j ≠ c → s.inverted_lists[j]? = some list → ∀ e ∈ list, e.id ≠ id := by
  rw [h.lookup_iff]
  constructor
  · rintro ⟨e, ⟨list, hlist, he⟩, rfl⟩
    refine ⟨⟨list, hlist, length_filter_id (h.list_ids_nodup hlist) he⟩, ?_⟩
    -- Another list with the id would hold a second entry with it.
    intro j list' hj hlist' x hx hid
    have hjc : j = c := Holds.unique h.ids_nodup ⟨list', hlist', hx⟩ ⟨list, hlist, he⟩ hid
    exact hj hjc
  · rintro ⟨⟨list, hlist, hone⟩, -⟩
    obtain ⟨e, he⟩ := List.exists_mem_of_length_pos (by omega :
      0 < (list.filter fun e => e.id = id).length)
    obtain ⟨he, hid⟩ := List.mem_filter.1 he
    exact ⟨e, ⟨list, hlist, he⟩, of_decide_eq_true hid⟩

/-- The number of keys of the id map. -/
theorem Inv.card_keys (h : Inv s) : s.id_to_cluster.keys.card = s.live_count := by
  have hkeys : s.id_to_cluster.keys = (s.entries.map (·.id)).toFinset := by
    ext id
    rw [Finmap.mem_keys, List.mem_toFinset, h.mem_iff]
  rw [hkeys, List.toFinset_card_of_nodup h.ids_nodup, List.length_map, h.live_count]

/-- The reported cluster sizes. -/
theorem clusterStats_sizes (htrained : s.trained = true) :
    s.clusterStats.cluster_sizes = s.inverted_lists.map List.length := by
  unfold IvfIndex.clusterStats IvfClusterStats.fromSizes
  rw [htrained, if_pos rfl]
  dsimp only
  split_ifs
  · rfl
  · rfl

/-- In every reachable state the lists, the id map, the count and the stamps agree, and no call from
there turns the stamp counter back. -/
theorem reachable_representation (hs : Reachable s) :
    Representation s ∧ ∀ op r t, call op s = .ok (r, t) → s.next_seq ≤ t.next_seq := by
  have h := hs.inv
  constructor
  · constructor
    case lists => exact h.lists_length
    case centroids => exact fun ht => ⟨(h.centroids ht).length_eq, (h.centroids ht).dims⟩
    case id_map => exact h.id_map
    case live_keys => exact h.card_keys.symm
    case live_entries => exact h.sum_sizes.symm
    case live_stats =>
      intro ht
      rw [clusterStats_sizes ht, h.sum_sizes]
    case seqs => exact h.seqs_nodup
    case seq_lt => exact h.seq_lt
    case next_seq_lt => exact h.next_seq_lt
    case dims => exact fun e he => h.vector_length he
    case n_probes => exact ⟨h.valid.one_le_n_probes, h.valid.n_probes_le⟩
  · intro op r t hcall
    exact (transition_of_call h hcall).next_seq_bounds.1

/-- The representation of a trained index with two items, one of them inserted after a delete. -/
theorem flatState_representation :
    (flatState.trained = true ∧ flatState.live_count = 2) ∧ Representation flatState ∧
      ∀ op r t, call op flatState = .ok (r, t) → flatState.next_seq ≤ t.next_seq :=
  ⟨by decide +kernel, reachable_representation flatState_reachable⟩

/-- In every reachable state each entry is in the list that the current centroids assign it to, and
has the code that the current quantizer gives it; a trained index has a quantizer exactly in IVF-PQ
mode. -/
theorem reachable_model_current (hs : Reachable s) :
    (∀ c list, s.inverted_lists[c]? = some list → ∀ e ∈ list,
      assignToCluster s.centroids e.vector = .ok c ∧
      (s.cfg.use_pq = true → ∃ pq code, s.pq = some pq ∧ X.quantize pq e.vector = .ok code ∧
        e.pq_code = some code) ∧
      (s.cfg.use_pq = false → e.pq_code = none)) ∧
    (s.trained = true → (s.pq.isSome = true ↔ s.cfg.use_pq = true)) := by
  have h := hs.inv
  constructor
  · intro c list hlist e he
    have hmem : e ∈ s.entries := mem_flatten_iff.2 ⟨c, list, hlist, he⟩
    have htrained := h.trained_of_mem hmem
    refine ⟨(h.placed c e ⟨list, hlist, he⟩).cluster, ?_, ?_⟩
    · intro huse
      obtain ⟨pq, hpq⟩ := h.exists_pq htrained huse
      obtain ⟨code, hquantize, hcode⟩ := h.quantized hpq hmem
      exact ⟨pq, code, hpq, hquantize, hcode⟩
    · intro huse
      exact h.pq_code_eq_none ((h.pq_eq_none_iff htrained).2 huse) hmem
  · intro htrained
    rw [h.pq_isSome htrained]

/-- The model of an IVF-PQ index with two items. -/
theorem pqState_model_current :
    (pqState.trained = true ∧ pqState.live_count = 2) ∧
    (∀ c list, pqState.inverted_lists[c]? = some list → ∀ e ∈ list,
      assignToCluster pqState.centroids e.vector = .ok c ∧
      (pqState.cfg.use_pq = true → ∃ pq code, pqState.pq = some pq ∧
        crates.quantize pq e.vector = .ok code ∧ e.pq_code = some code) ∧
      (pqState.cfg.use_pq = false → e.pq_code = none)) ∧
    (pqState.trained = true → (pqState.pq.isSome = true ↔ pqState.cfg.use_pq = true)) :=
  ⟨by decide +kernel, reachable_model_current pqState_reachable⟩

end IqdbIvf
