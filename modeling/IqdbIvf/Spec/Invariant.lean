import IqdbIvf.Lib.Buckets
import IqdbIvf.Model.Calls
import IqdbIvf.Spec.Training

/-!
# The representation invariant

`Inv` relates the redundant parts of the index: the lists, the id map, the live count, the stamps,
and the model (centroids and quantizer) that every entry was written under. The states that the
operations leave are built from a few transformers of whole states, and each of them keeps the
invariant: bumping the stamp counter, adding an entry, removing one, and emptying the lists under a
new model. The reassign loop of `retrain` is the second of these once per entry, so the states in
the middle of the loop satisfy the invariant too.
-/

set_option linter.unusedSectionVars false

namespace IqdbIvf

open Outcome Buckets

variable {F32 : Type} [Arith F32] {X : Crates F32} {s : IvfIndex X}

/-! ## The current model -/

/-- The stored entries, in list order. -/
def IvfIndex.entries (s : IvfIndex X) : List (InvertedListEntry X) := s.inverted_lists.flatten

/-- The cluster that `assign_to_cluster` answers for a vector of the right dimension. -/
def nearest (centroids : List (List F32)) (vector : List F32) : ℕ :=
  (assignToCluster centroids vector).toOption.getD 0

/-- The quantizer of the index, if there is one, encodes the vector. -/
def IvfIndex.Encodes (s : IvfIndex X) (vector : List F32) : Prop :=
  ∃ code, s.encode vector = .ok code

/-- The code of a vector that the index encodes. -/
def IvfIndex.codeOf (s : IvfIndex X) (vector : List F32) : Option X.PqCode :=
  (s.encode vector).toOption.getD none

/-- The entry under the current quantizer. -/
def IvfIndex.recode (s : IvfIndex X) (e : InvertedListEntry X) : InvertedListEntry X :=
  { e with pq_code := s.codeOf e.vector }

/-- The cluster of a vector of the right dimension is one of the clusters. -/
theorem Centroids.nearest_spec {dim k : ℕ} {cs : List (List F32)} (h : Centroids dim k cs)
    (hk : 1 ≤ k) {v : List F32} (hv : v.length = dim) :
    assignToCluster cs v = .ok (nearest cs v) ∧ nearest cs v < k := by
  obtain ⟨c, hc, hlt⟩ := returns_iff.1 (h.assign_returns hk hv)
  unfold nearest
  rw [hc]
  exact ⟨rfl, hlt⟩

/-- An encoded vector is encoded as its code. -/
theorem IvfIndex.Encodes.eq_ok {v : List F32} (h : s.Encodes v) :
    s.encode v = .ok (s.codeOf v) := by
  obtain ⟨code, hcode⟩ := h
  unfold codeOf
  rw [hcode]
  rfl

/-- The entry is what the current model makes of its vector, and `c` is the list for it. -/
structure Placed (s : IvfIndex X) (c : ℕ) (e : InvertedListEntry X) : Prop where
  dim : e.vector.length = s.dim
  cluster : assignToCluster s.centroids e.vector = .ok c
  code : s.encode e.vector = .ok e.pq_code

/-- The representation invariant. -/
structure Inv (s : IvfIndex X) : Prop where
  dim_pos : 0 < s.dim
  valid : s.cfg.Valid
  shape : checkPqShape s.dim s.metric s.cfg = .ok ()
  lists_length : s.inverted_lists.length = s.cfg.n_clusters
  centroids : s.trained = true → Centroids s.dim s.cfg.n_clusters s.centroids
  pq_isSome : s.trained = true → s.pq.isSome = s.cfg.use_pq
  untrained : s.trained = false → s.entries = [] ∧ s.pq = none
  placed : ∀ c e, Holds s.inverted_lists c e → Placed s c e
  ids_nodup : (s.entries.map (·.id)).Nodup
  lookup_iff : ∀ id c,
    s.id_to_cluster.lookup id = some c ↔ ∃ e, Holds s.inverted_lists c e ∧ e.id = id
  live_count : s.live_count = s.entries.length
  seqs_nodup : (s.entries.map (·.seq)).Nodup
  seq_lt : ∀ e ∈ s.entries, e.seq < s.next_seq
  next_seq_lt : s.next_seq < 2^64

namespace Inv

/-- An id is in the map exactly when it is the id of an entry. -/
theorem mem_iff (h : Inv s) (id : X.VectorId) :
    id ∈ s.id_to_cluster ↔ id ∈ s.entries.map (·.id) := by
  rw [← Finmap.lookup_isSome, Option.isSome_iff_exists, List.mem_map]
  constructor
  · rintro ⟨c, hc⟩
    obtain ⟨e, he, hid⟩ := (h.lookup_iff id c).1 hc
    exact ⟨e, mem_flatten_iff.2 ⟨c, he⟩, hid⟩
  · rintro ⟨e, he, hid⟩
    obtain ⟨c, hc⟩ := mem_flatten_iff.1 he
    exact ⟨c, (h.lookup_iff id c).2 ⟨e, hc, hid⟩⟩

/-- The stamps are distinct numbers below `2^64`, so there are fewer than `2^64` entries. -/
theorem length_lt (h : Inv s) : s.entries.length < 2^64 := by
  -- Distinct numbers below `next_seq` are at most that many.
  have hsub : s.entries.map (·.seq) ⊆ List.range s.next_seq := by
    intro n hn
    obtain ⟨e, he, rfl⟩ := List.mem_map.1 hn
    exact List.mem_range.2 (h.seq_lt e he)
  have hle := (h.seqs_nodup.subperm hsub).length_le
  have hlt := h.next_seq_lt
  rw [List.length_map, List.length_range] at hle
  omega

/-- A trained index without a quantizer is in IVF-Flat mode. -/
theorem pq_eq_none_iff (h : Inv s) (htrained : s.trained = true) :
    s.pq = none ↔ s.cfg.use_pq = false := by
  rw [← h.pq_isSome htrained, ← Option.not_isSome_iff_eq_none, Bool.not_eq_true]

/-- A trained index in IVF-PQ mode has a quantizer. -/
theorem exists_pq (h : Inv s) (htrained : s.trained = true) (huse : s.cfg.use_pq = true) :
    ∃ pq, s.pq = some pq :=
  Option.isSome_iff_exists.1 ((h.pq_isSome htrained).trans huse)

/-- The ids of one list do not repeat. -/
theorem list_ids_nodup (h : Inv s) {c : ℕ} {list : List (InvertedListEntry X)}
    (hc : s.inverted_lists[c]? = some list) : (list.map (·.id)).Nodup := by
  have hsub : list.Sublist s.entries := List.sublist_flatten_of_mem (List.mem_of_getElem? hc)
  exact h.ids_nodup.sublist (hsub.map _)

/-- The sum of the sizes of the lists. -/
theorem sum_sizes (h : Inv s) : (s.inverted_lists.map List.length).sum = s.live_count := by
  rw [h.live_count]
  exact List.length_flatten.symm

/-- An untrained index has no entries. -/
theorem not_holds (h : Inv s) (htrained : s.trained = false) (c : ℕ)
    (e : InvertedListEntry X) : ¬ Holds s.inverted_lists c e := by
  intro he
  have hmem : e ∈ s.entries := mem_flatten_iff.2 ⟨c, he⟩
  rw [(h.untrained htrained).1] at hmem
  exact List.not_mem_nil hmem

/-- An index with an entry is trained. -/
theorem trained_of_mem (h : Inv s) {e : InvertedListEntry X} (he : e ∈ s.entries) :
    s.trained = true := by
  obtain ⟨c, hc⟩ := mem_flatten_iff.1 he
  by_contra hfalse
  exact h.not_holds (Bool.eq_false_of_not_eq_true hfalse) c e hc

/-- Every stored vector has the dimension of the index. -/
theorem vector_length (h : Inv s) {e : InvertedListEntry X} (he : e ∈ s.entries) :
    e.vector.length = s.dim := by
  obtain ⟨c, hc⟩ := mem_flatten_iff.1 he
  exact (h.placed c e hc).dim

/-- The code of every entry is what the quantizer of the index gives its vector. -/
theorem quantized (h : Inv s) {pq : X.ProductQuantizer} (hpq : s.pq = some pq)
    {e : InvertedListEntry X} (he : e ∈ s.entries) :
    ∃ code, X.quantize pq e.vector = .ok code ∧ e.pq_code = some code := by
  obtain ⟨c, hc⟩ := mem_flatten_iff.1 he
  have hencode : (X.quantize pq e.vector).map some = .ok e.pq_code := by
    have hcode := (h.placed c e hc).code
    unfold IvfIndex.encode at hcode
    rwa [hpq] at hcode
  cases hquantize : X.quantize pq e.vector with
  | error err =>
    rw [hquantize] at hencode
    cases hencode
  | ok code =>
    rw [hquantize] at hencode
    exact ⟨code, rfl, (Except.ok.inj hencode).symm⟩

/-- Without a quantizer no entry has a code. -/
theorem pq_code_eq_none (h : Inv s) (hpq : s.pq = none) {e : InvertedListEntry X}
    (he : e ∈ s.entries) : e.pq_code = none := by
  obtain ⟨c, hc⟩ := mem_flatten_iff.1 he
  have hcode := (h.placed c e hc).code
  unfold IvfIndex.encode at hcode
  rw [hpq] at hcode
  exact (Except.ok.inj hcode).symm

end Inv

/-- The entry at a position of a list is stored. -/
theorem IvfIndex.mem_entries {c pos : ℕ} {list : List (InvertedListEntry X)}
    {e : InvertedListEntry X} (hc : s.inverted_lists[c]? = some list) (hpos : list[pos]? = some e) :
    e ∈ s.entries :=
  mem_flatten_iff.2 ⟨c, list, hc, List.mem_of_getElem? hpos⟩

/-! ## The transformers -/

namespace IvfIndex

/-- The state after a stamp was taken. -/
def bumpSeq (s : IvfIndex X) : IvfIndex X := { s with next_seq := s.next_seq + 1 }

/-- The state with one more entry. -/
def addEntry (s : IvfIndex X) (c : ℕ) (e : InvertedListEntry X) : IvfIndex X :=
  { s with
    inverted_lists := s.inverted_lists.modify c fun list => list ++ [e]
    id_to_cluster := s.id_to_cluster.insert e.id c
    live_count := s.live_count + 1 }

/-- The state without the entry of an id, whose list becomes `list`. -/
def removeEntry (s : IvfIndex X) (c : ℕ) (id : X.VectorId) (list : List (InvertedListEntry X)) :
    IvfIndex X :=
  { s with
    inverted_lists := s.inverted_lists.set c list
    id_to_cluster := s.id_to_cluster.erase id
    live_count := s.live_count - 1 }

/-- The state with no entries, under a given model. -/
def drained (s : IvfIndex X) (centroids : List (List F32)) (pq : Option X.ProductQuantizer) :
    IvfIndex X :=
  { s with
    centroids, pq
    inverted_lists := s.inverted_lists.map fun _ => []
    id_to_cluster := ∅
    live_count := 0 }

/-- The state with one more entry, in the list and under the code of the current model. -/
def place (s : IvfIndex X) (e : InvertedListEntry X) : IvfIndex X :=
  s.addEntry (nearest s.centroids e.vector) (s.recode e)

/-- The state with more entries, one after the other. -/
def placeAll (s : IvfIndex X) (es : List (InvertedListEntry X)) : IvfIndex X := es.foldl place s

/-- Adding an entry replaces its list. -/
theorem addEntry_lists {c : ℕ} {list : List (InvertedListEntry X)}
    (hc : s.inverted_lists[c]? = some list) (e : InvertedListEntry X) :
    (s.addEntry c e).inverted_lists = s.inverted_lists.set c (list ++ [e]) := by
  unfold addEntry
  rw [List.modify_eq_set_getElem?, hc]
  rfl

/-- What the entries of an emptied index are. -/
@[simp] theorem drained_entries (cs : List (List F32)) (pq : Option X.ProductQuantizer) :
    (s.drained cs pq).entries = [] := by
  unfold drained entries
  simp

end IvfIndex

namespace Inv

/-- Taking a stamp below the limit. -/
theorem bumpSeq (h : Inv s) (hlt : s.next_seq + 1 < 2^64) : Inv s.bumpSeq :=
  { h with
    placed := fun c e he =>
      ⟨(h.placed c e he).dim, (h.placed c e he).cluster, (h.placed c e he).code⟩
    seq_lt := fun e he => Nat.lt_succ_of_lt (h.seq_lt e he)
    next_seq_lt := hlt }

/-- Setting search parameters. -/
theorem withCfg (h : Inv s) {cfg : IvfConfig} (hvalid : cfg.Valid)
    (hshape : checkPqShape s.dim s.metric cfg = checkPqShape s.dim s.metric s.cfg)
    (hclusters : cfg.n_clusters = s.cfg.n_clusters) (huse : cfg.use_pq = s.cfg.use_pq) :
    Inv { s with cfg := cfg } := by
  refine { h with valid := hvalid, shape := hshape.trans h.shape,
                  lists_length := h.lists_length.trans hclusters.symm, centroids := ?_,
                  pq_isSome := ?_, placed := ?_ }
  · intro htrained
    show Centroids s.dim cfg.n_clusters s.centroids
    rw [hclusters]
    exact h.centroids htrained
  · intro htrained
    exact (h.pq_isSome htrained).trans huse.symm
  · intro c e he
    have hplaced := h.placed c e he
    exact ⟨hplaced.dim, hplaced.cluster, hplaced.code⟩

/-- A list that is there. -/
theorem exists_list (h : Inv s) {c : ℕ} (hc : c < s.cfg.n_clusters) :
    ∃ list, s.inverted_lists[c]? = some list :=
  ⟨_, List.getElem?_eq_getElem (by rw [h.lists_length]; exact hc)⟩

/-- The list for a placed entry is there. -/
theorem cluster_lt (h : Inv s) (htrained : s.trained = true) {c : ℕ} {e : InvertedListEntry X}
    (he : Placed s c e) : c < s.cfg.n_clusters := by
  have hret := (h.centroids htrained).assign_returns h.valid.one_le_n_clusters he.dim
  exact hret.of_ok he.cluster

/-- The entries after one is added. -/
theorem addEntry_entries (h : Inv s) {c : ℕ} (hc : c < s.cfg.n_clusters)
    (e : InvertedListEntry X) : (s.addEntry c e).entries.Perm (e :: s.entries) := by
  obtain ⟨list, hlist⟩ := h.exists_list hc
  unfold IvfIndex.entries
  rw [IvfIndex.addEntry_lists hlist]
  exact flatten_push_perm hlist e

/-- Adding a fresh entry that the current model placed. -/
theorem addEntry (h : Inv s) (htrained : s.trained = true) {c : ℕ} {e : InvertedListEntry X}
    (he : Placed s c e) (hid : e.id ∉ s.entries.map (·.id)) (hseq : e.seq ∉ s.entries.map (·.seq))
    (hlt : e.seq < s.next_seq) : Inv (s.addEntry c e) := by
  have hc := h.cluster_lt htrained he
  obtain ⟨list, hlist⟩ := h.exists_list hc
  have hlists := IvfIndex.addEntry_lists hlist e
  have hperm := h.addEntry_entries hc e
  have hclen : c < s.inverted_lists.length := by rw [h.lists_length]; exact hc
  -- A list holds what it held, and the list of the new entry holds that one too.
  have hholds : ∀ j x, Holds (s.addEntry c e).inverted_lists j x ↔
      (j = c ∧ x = e) ∨ Holds s.inverted_lists j x := by
    intro j x
    rw [hlists, holds_set_iff hclen]
    by_cases hj : j = c
    · subst hj
      simp [Holds, hlist, or_comm]
    · simp [hj]
  refine { h with lists_length := ?_, untrained := ?_, placed := ?_, ids_nodup := ?_,
                  lookup_iff := ?_, live_count := ?_, seqs_nodup := ?_, seq_lt := ?_ }
  · rw [hlists, List.length_set]
    exact h.lists_length
  · intro hfalse
    have hfalse : s.trained = false := hfalse
    rw [hfalse] at htrained
    cases htrained
  · intro j x hx
    rcases (hholds j x).1 hx with ⟨rfl, rfl⟩ | hx
    · exact ⟨he.dim, he.cluster, he.code⟩
    · have hp := h.placed j x hx
      exact ⟨hp.dim, hp.cluster, hp.code⟩
  · rw [(hperm.map _).nodup_iff]
    exact List.nodup_cons.2 ⟨hid, h.ids_nodup⟩
  · intro id j
    by_cases hx : id = e.id
    · -- The new id is in the new entry's list only.
      subst hx
      have hlookup : (s.addEntry c e).id_to_cluster.lookup e.id = some c :=
        Finmap.lookup_insert _
      rw [hlookup, Option.some_inj]
      constructor
      · rintro rfl
        exact ⟨e, (hholds c e).2 (.inl ⟨rfl, rfl⟩), rfl⟩
      · rintro ⟨x, hx, hxid⟩
        rcases (hholds j x).1 hx with ⟨rfl, -⟩ | hx
        · rfl
        · exact absurd (List.mem_map.2 ⟨x, mem_flatten_iff.2 ⟨j, hx⟩, hxid⟩) hid
    · have hlookup : (s.addEntry c e).id_to_cluster.lookup id = s.id_to_cluster.lookup id :=
        Finmap.lookup_insert_of_ne _ hx
      rw [hlookup, h.lookup_iff id j]
      constructor
      · rintro ⟨x, hx, hxid⟩
        exact ⟨x, (hholds j x).2 (.inr hx), hxid⟩
      · rintro ⟨x, hx', hxid⟩
        rcases (hholds j x).1 hx' with ⟨-, rfl⟩ | hx'
        · exact absurd hxid.symm hx
        · exact ⟨x, hx', hxid⟩
  · rw [hperm.length_eq, List.length_cons, ← h.live_count]
    rfl
  · rw [(hperm.map _).nodup_iff]
    exact List.nodup_cons.2 ⟨hseq, h.seqs_nodup⟩
  · intro x hx
    rcases List.mem_cons.1 (hperm.mem_iff.1 hx) with rfl | hx
    · exact hlt
    · exact h.seq_lt x hx

/-- Removing the entry of an id. -/
theorem removeEntry (h : Inv s) {c : ℕ} {e : InvertedListEntry X}
    {old list : List (InvertedListEntry X)} (hold : s.inverted_lists[c]? = some old)
    (hperm : old.Perm (e :: list)) :
    Inv (s.removeEntry c e.id list) ∧
      s.entries.Perm (e :: (s.removeEntry c e.id list).entries) := by
  have hclen : c < s.inverted_lists.length := (List.getElem?_eq_some_iff.1 hold).1
  have hentries : s.entries.Perm (e :: (s.removeEntry c e.id list).entries) :=
    flatten_remove_perm hold hperm
  have hec : Holds s.inverted_lists c e := ⟨old, hold, hperm.mem_iff.2 List.mem_cons_self⟩
  have hids : e.id ∉ (s.removeEntry c e.id list).entries.map (·.id) := by
    have hnodup := ((hentries.map (·.id)).nodup_iff).1 h.ids_nodup
    exact (List.nodup_cons.1 hnodup).1
  -- A list that holds an entry afterwards held it before.
  have hholds : ∀ j x, Holds (s.removeEntry c e.id list).inverted_lists j x ↔
      Holds s.inverted_lists j x ∧ x.id ≠ e.id := by
    intro j x
    have hset : Holds (s.removeEntry c e.id list).inverted_lists j x ↔
        (j = c ∧ x ∈ list) ∨ (j ≠ c ∧ Holds s.inverted_lists j x) := holds_set_iff hclen list j x
    constructor
    · intro hx
      have hne : x.id ≠ e.id := by
        intro heq
        exact hids (heq ▸ List.mem_map_of_mem (mem_flatten_iff.2 ⟨j, hx⟩))
      rcases hset.1 hx with ⟨rfl, hx'⟩ | ⟨-, hx'⟩
      · exact ⟨⟨old, hold, hperm.mem_iff.2 (List.mem_cons_of_mem e hx')⟩, hne⟩
      · exact ⟨hx', hne⟩
    · rintro ⟨hx, hne⟩
      rw [hset]
      by_cases hj : j = c
      · subst hj
        obtain ⟨b, hb, hxb⟩ := hx
        rw [hold, Option.some_inj] at hb
        subst hb
        rcases List.mem_cons.1 (hperm.mem_iff.1 hxb) with rfl | hx'
        · exact absurd rfl hne
        · exact .inl ⟨rfl, hx'⟩
      · exact .inr ⟨hj, hx⟩
  have hmem : ∀ x ∈ (s.removeEntry c e.id list).entries, x ∈ s.entries := fun x hx =>
    hentries.mem_iff.2 (List.mem_cons_of_mem e hx)
  refine ⟨{ h with lists_length := ?_, untrained := ?_, placed := ?_, ids_nodup := ?_,
                   lookup_iff := ?_, live_count := ?_, seqs_nodup := ?_, seq_lt := ?_ }, hentries⟩
  · exact List.length_set.trans h.lists_length
  · intro hfalse
    have hnil := (h.untrained hfalse).1
    rw [hnil] at hentries
    exact absurd hentries.symm.eq_nil (List.cons_ne_nil _ _)
  · intro j x hx
    have hp := h.placed j x ((hholds j x).1 hx).1
    exact ⟨hp.dim, hp.cluster, hp.code⟩
  · have hnodup := ((hentries.map (·.id)).nodup_iff).1 h.ids_nodup
    exact (List.nodup_cons.1 hnodup).2
  · intro id j
    by_cases hid : id = e.id
    · -- The key is gone, and so is the only entry with this id.
      subst hid
      have hlookup : (s.removeEntry c e.id list).id_to_cluster.lookup e.id = none :=
        Finmap.lookup_erase _ _
      rw [hlookup]
      constructor
      · intro hnone
        cases hnone
      · rintro ⟨x, hx, hxid⟩
        exact absurd hxid ((hholds j x).1 hx).2
    · have hlookup : (s.removeEntry c e.id list).id_to_cluster.lookup id =
          s.id_to_cluster.lookup id := Finmap.lookup_erase_ne hid
      rw [hlookup, h.lookup_iff id j]
      constructor
      · rintro ⟨x, hx, hxid⟩
        exact ⟨x, (hholds j x).2 ⟨hx, fun heq => hid (hxid.symm.trans heq)⟩, hxid⟩
      · rintro ⟨x, hx, hxid⟩
        exact ⟨x, ((hholds j x).1 hx).1, hxid⟩
  · have hlen := hentries.length_eq
    rw [List.length_cons, ← h.live_count] at hlen
    have hcount : (s.removeEntry c e.id list).live_count = s.live_count - 1 := rfl
    omega
  · have hnodup := ((hentries.map (·.seq)).nodup_iff).1 h.seqs_nodup
    exact (List.nodup_cons.1 hnodup).2
  · intro x hx
    exact h.seq_lt x (hmem x hx)

/-- Emptying a trained index under a model of the right shape. -/
theorem drained (h : Inv s) (htrained : s.trained = true) {cs : List (List F32)}
    {pq : Option X.ProductQuantizer} (hcs : Centroids s.dim s.cfg.n_clusters cs)
    (hpq : pq.isSome = s.cfg.use_pq) : Inv (s.drained cs pq) := by
  have hnone : ∀ c e, ¬ Holds (s.drained cs pq).inverted_lists c e := by
    apply not_holds_of_empty
    intro list hlist
    obtain ⟨old, -, rfl⟩ := List.mem_map.1 hlist
    rfl
  have hnil : (s.drained cs pq).entries = [] := IvfIndex.drained_entries cs pq
  refine { h with lists_length := ?_, centroids := fun _ => hcs, pq_isSome := fun _ => hpq,
                  untrained := ?_, placed := ?_, ids_nodup := ?_, lookup_iff := ?_,
                  live_count := ?_, seqs_nodup := ?_, seq_lt := ?_ }
  · exact (List.length_map _).trans h.lists_length
  · intro hfalse
    have hfalse : s.trained = false := hfalse
    rw [hfalse] at htrained
    cases htrained
  · intro c e he
    exact absurd he (hnone c e)
  · rw [hnil]
    exact List.nodup_nil
  · intro id c
    have hlookup : (s.drained cs pq).id_to_cluster.lookup id = none := Finmap.lookup_empty id
    rw [hlookup]
    constructor
    · intro hsome
      cases hsome
    · rintro ⟨e, he, -⟩
      exact absurd he (hnone c e)
  · rw [hnil]
    rfl
  · rw [hnil]
    exact List.nodup_nil
  · rw [hnil]
    intro e he
    cases he

end Inv

/-! ## Construction -/

/-- The index that construction returns. -/
def IvfIndex.fresh (X : Crates F32) (dim : ℕ) (metric : DistanceMetric) (cfg : IvfConfig) :
    IvfIndex X where
  dim := dim
  metric := metric
  cfg := cfg
  trained := false
  centroids := []
  inverted_lists := List.replicate cfg.n_clusters []
  id_to_cluster := ∅
  next_seq := 0
  live_count := 0
  pq := none

/-- What construction accepts. -/
theorem IvfIndex.new_eq_ok {dim : ℕ} {metric : DistanceMetric} {cfg : IvfConfig} :
    IvfIndex.new X dim metric cfg = .ok s ↔
      0 < dim ∧ cfg.Valid ∧ checkPqShape dim metric cfg = .ok () ∧ s = fresh X dim metric cfg := by
  unfold IvfIndex.new
  rw [← IvfConfig.validate_eq_ok]
  by_cases hdim : dim = 0
  · simp [hdim]
  have hpos : 0 < dim := Nat.pos_of_ne_zero hdim
  cases hvalid : cfg.validate with
  | error e => simp [hdim]
  | ok u =>
    cases hshape : checkPqShape dim metric cfg with
    | error e => simp [hdim]
    | ok u =>
      simp only [hdim, hpos, if_false, ok_bind, pure_eq_ok, Except.ok.injEq, true_and]
      exact eq_comm

/-- Construction establishes the invariant. -/
theorem Inv.new {dim : ℕ} {metric : DistanceMetric} {cfg : IvfConfig}
    (h : IvfIndex.new X dim metric cfg = .ok s) : Inv s := by
  obtain ⟨hpos, hvalid, hshape, rfl⟩ := IvfIndex.new_eq_ok.1 h
  have hempty : ∀ list ∈ (IvfIndex.fresh X dim metric cfg).inverted_lists, list = [] :=
    fun list hlist => List.eq_of_mem_replicate hlist
  have hnone := not_holds_of_empty hempty
  have hnil : (IvfIndex.fresh X dim metric cfg).entries = [] := List.flatten_eq_nil_iff.2 hempty
  constructor
  case dim_pos => exact hpos
  case valid => exact hvalid
  case shape => exact hshape
  case lists_length => exact List.length_replicate
  case centroids => exact fun hfalse => absurd hfalse Bool.false_ne_true
  case pq_isSome => exact fun hfalse => absurd hfalse Bool.false_ne_true
  case untrained => exact fun _ => ⟨hnil, rfl⟩
  case placed => exact fun c e he => absurd he (hnone c e)
  case lookup_iff =>
    intro id c
    have hlookup : (IvfIndex.fresh X dim metric cfg).id_to_cluster.lookup id = none :=
      Finmap.lookup_empty id
    rw [hlookup]
    constructor
    · intro hsome
      cases hsome
    · rintro ⟨e, he, -⟩
      exact absurd he (hnone c e)
  case next_seq_lt => exact Nat.two_pow_pos 64
  all_goals
    rw [hnil]
    simp [IvfIndex.fresh]

/-! ## Placing a list of entries -/

section PlaceAll

variable {es : List (InvertedListEntry X)}

/-- Placing entries changes the lists, the map and the count only; the lists are those of a
distribution over the clusters. -/
theorem IvfIndex.placeAll_eq (s : IvfIndex X) (es : List (InvertedListEntry X)) :
    s.placeAll es = { s with
      inverted_lists := (es.map s.recode).foldl
        (Buckets.place fun e => nearest s.centroids e.vector) s.inverted_lists
      id_to_cluster := es.foldl (fun m e => m.insert e.id (nearest s.centroids e.vector))
        s.id_to_cluster
      live_count := s.live_count + es.length } := by
  induction es generalizing s with
  | nil => rfl
  | cons e es ih =>
    calc s.placeAll (e :: es) = (s.place e).placeAll es := rfl
      _ = _ := by
        rw [ih]
        simp only [List.map_cons, List.foldl_cons, List.length_cons]
        congr 1
        show s.live_count + 1 + es.length = s.live_count + (es.length + 1)
        omega

/-- Placing fresh entries keeps the invariant, and adds the entries under their current codes. -/
theorem Inv.placeAll (h : Inv s) (htrained : s.trained = true)
    (hdim : ∀ e ∈ es, e.vector.length = s.dim) (hcode : ∀ e ∈ es, s.Encodes e.vector)
    (hids : ((es ++ s.entries).map (·.id)).Nodup) (hseqs : ((es ++ s.entries).map (·.seq)).Nodup)
    (hlt : ∀ e ∈ es, e.seq < s.next_seq) :
    Inv (s.placeAll es) ∧ (s.placeAll es).entries.Perm (es.map s.recode ++ s.entries) := by
  induction es generalizing s with
  | nil => exact ⟨h, List.Perm.refl _⟩
  | cons e es ih =>
    have hcs := (h.centroids htrained).nearest_spec h.valid.one_le_n_clusters
      (hdim e List.mem_cons_self)
    -- Placing does not change the model, so the first entry is placed under the current one.
    have hplaced : Placed s (nearest s.centroids e.vector) (s.recode e) :=
      ⟨hdim e List.mem_cons_self, hcs.1, (hcode e List.mem_cons_self).eq_ok⟩
    rw [List.cons_append, List.map_cons, List.nodup_cons, List.map_append, List.mem_append,
      not_or] at hids hseqs
    obtain ⟨⟨hidl, hidr⟩, hids⟩ := hids
    obtain ⟨⟨hseql, hseqr⟩, hseqs⟩ := hseqs
    have hinv : Inv (s.place e) := h.addEntry htrained hplaced hidr hseqr (hlt e List.mem_cons_self)
    have hperm : (s.place e).entries.Perm (s.recode e :: s.entries) :=
      h.addEntry_entries hcs.2 (s.recode e)
    -- The remaining entries are fresh for the state with one more.
    have hmid : (es ++ (s.place e).entries).Perm (s.recode e :: (es ++ s.entries)) :=
      (hperm.append_left es).trans List.perm_middle
    have hids' : ((es ++ (s.place e).entries).map (·.id)).Nodup := by
      rw [(hmid.map _).nodup_iff, List.map_cons, List.nodup_cons, List.map_append, List.mem_append,
        not_or]
      exact ⟨⟨hidl, hidr⟩, hids⟩
    have hseqs' : ((es ++ (s.place e).entries).map (·.seq)).Nodup := by
      rw [(hmid.map _).nodup_iff, List.map_cons, List.nodup_cons, List.map_append, List.mem_append,
        not_or]
      exact ⟨⟨hseql, hseqr⟩, hseqs⟩
    obtain ⟨hinv', hperm'⟩ := ih hinv htrained
      (fun x hx => hdim x (List.mem_cons_of_mem e hx))
      (fun x hx => hcode x (List.mem_cons_of_mem e hx)) hids' hseqs'
      (fun x hx => hlt x (List.mem_cons_of_mem e hx))
    refine ⟨hinv', hperm'.trans ?_⟩
    calc (es.map s.recode ++ (s.place e).entries).Perm
          (es.map s.recode ++ (s.recode e :: s.entries)) := hperm.append_left _
      _ |>.Perm (s.recode e :: (es.map s.recode ++ s.entries)) := List.perm_middle

end PlaceAll

end IqdbIvf
