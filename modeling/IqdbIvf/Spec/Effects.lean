import IqdbIvf.Spec.View

/-!
# The effect of a call on the stored items

Seen through the live items in insertion order, an insert appends, a delete filters, and a retrain
leaves the items alone: the lists are permuted, the stamps and the codes may change, but the order
of the stamps does not.
-/

set_option linter.unusedSectionVars false

namespace IqdbIvf

open Outcome Buckets

variable {F32 : Type} [Arith F32] {X : Crates F32} {s t : IvfIndex X}

/-- The live entries are the only list of the stored entries in the order of the stamps. -/
theorem Inv.live_eq (h : Inv t) {es : List (InvertedListEntry X)} (hperm : es.Perm t.entries)
    (hsorted : es.Pairwise fun a b => a.seq < b.seq) : t.live = es := by
  apply List.Perm.eq_of_pairwise _ h.live_sorted hsorted (t.live_perm.trans hperm.symm)
  intro a b _ _ hab hba
  omega

/-- Adding an entry with the next stamp appends it. -/
theorem Inv.live_addEntry (h : Inv s) (hseq : s.next_seq + 1 < 2^64) {c : ℕ}
    (hc : c < s.cfg.n_clusters) {e : InvertedListEntry X} (he : e.seq = s.next_seq)
    (hinv : Inv (s.bumpSeq.addEntry c e)) :
    (s.bumpSeq.addEntry c e).live = s.live ++ [e] := by
  have hentries := (h.bumpSeq hseq).addEntry_entries hc e
  -- The new list has the same entries, and its last stamp is above all others.
  apply hinv.live_eq
  · calc (s.live ++ [e]).Perm (e :: s.live) := List.perm_append_singleton e _
      _ |>.Perm (e :: s.entries) := s.live_perm.cons e
      _ |>.Perm (s.bumpSeq.addEntry c e).entries := hentries.symm
  · rw [List.pairwise_append]
    refine ⟨h.live_sorted, List.pairwise_singleton _ _, ?_⟩
    intro a ha b hb
    obtain rfl := List.mem_singleton.1 hb
    have hlt := h.seq_lt a (s.live_perm.mem_iff.1 ha)
    omega

/-- Removing an entry filters it out by its id. -/
theorem Inv.live_removeEntry (h : Inv s) {c : ℕ} {e : InvertedListEntry X}
    {old list : List (InvertedListEntry X)} (hold : s.inverted_lists[c]? = some old)
    (hperm : old.Perm (e :: list)) :
    (s.removeEntry c e.id list).live = s.live.filter fun x => x.id ≠ e.id := by
  obtain ⟨hinv, hentries⟩ := h.removeEntry hold hperm
  have hnodup := ((hentries.map (·.id)).nodup_iff).1 h.ids_nodup
  rw [List.map_cons, List.nodup_cons] at hnodup
  -- The other entries have other ids.
  have hrest : (e :: (s.removeEntry c e.id list).entries).filter (fun x => x.id ≠ e.id) =
      (s.removeEntry c e.id list).entries := by
    have hhead : decide (e.id ≠ e.id) = false := by simp
    rw [List.filter_cons, hhead, if_neg Bool.false_ne_true, List.filter_eq_self]
    intro x hx
    rw [decide_eq_true_eq]
    intro heq
    exact hnodup.1 (heq ▸ List.mem_map_of_mem hx)
  apply hinv.live_eq
  · calc (s.live.filter fun x => x.id ≠ e.id).Perm (s.entries.filter fun x => x.id ≠ e.id) :=
          s.live_perm.filter _
      _ |>.Perm ((e :: (s.removeEntry c e.id list).entries).filter fun x => x.id ≠ e.id) :=
          hentries.filter _
      _ |>.Perm (s.removeEntry c e.id list).entries := by rw [hrest]
  · exact h.live_sorted.sublist List.filter_sublist

/-- Placing a prefix of the live entries under a new model keeps its order. -/
theorem Inv.live_placeAll (h : Inv s) (htrained : s.trained = true) {cs : List (List F32)}
    (hcs : Centroids s.dim s.cfg.n_clusters cs) {pq : Option X.ProductQuantizer}
    (hpq : TrainsPq s.cfg s.sample s.pq pq) {done : List (InvertedListEntry X)}
    (hsub : done.Sublist s.live) (hcode : ∀ x ∈ done, (s.drained cs pq).Encodes x.vector) :
    ((s.drained cs pq).placeAll done).live = done.map (s.drained cs pq).recode := by
  obtain ⟨hinv, hentries⟩ := h.placeAll_drained htrained hcs hpq hsub hcode
  apply hinv.live_eq hentries.symm
  rw [List.pairwise_map]
  exact h.live_sorted.sublist hsub

/-- What a call that returns `Ok` does to the items. -/
def Op.effect (op : Op X) (items : List (Item X)) : List (Item X) :=
  match op with
  | .insert id vector metadata => items ++ [⟨id, vector, metadata⟩]
  | .delete id => items.filter fun item => item.id ≠ id
  | _ => items

/-- The items after a call that returned `Ok`. -/
theorem Transition.items_of_ok {op : Op X} (h : Transition s op (.ok ()) t) (hs : Inv s) :
    t.items = op.effect s.items := by
  have hinv := h.inv hs
  unfold IvfIndex.items
  cases h with
  | inserted id v m code htrained hdim hid hseq hcode =>
    have hlt := ((hs.centroids htrained).nearest_spec hs.valid.one_le_n_clusters hdim).2
    have hlive := hs.live_addEntry hseq hlt (e := ⟨id, v, code, m, s.next_seq⟩) rfl hinv
    rw [hlive, List.map_append]
    rfl
  | deleted e c pos old list hold hpos hlist =>
    rw [hs.live_removeEntry hold (perm_of_swapRemove hpos hlist)]
    show _ = (s.live.map (·.item)).filter _
    rw [List.filter_map]
    rfl
  | retrained cs pq htrained hlive hkmeans hpq hcode =>
    rw [hs.live_placeAll htrained (hs.centroids_of_recluster hkmeans) hpq (List.Sublist.refl _)
      hcode, List.map_map]
    rfl
  | _ => rfl

/-- A call that returned an error left the items alone, unless it was a retrain. -/
theorem Transition.items_of_error {op : Op X} {e : IqdbError} (h : Transition s op (.error e) t)
    (hop : op ≠ .retrain) : t.items = s.items := by
  cases h with
  | retrainUntrained => exact absurd rfl hop
  | retrainKmeansFails => exact absurd rfl hop
  | retrainPqFails => exact absurd rfl hop
  | retrainEncodeFails => exact absurd rfl hop
  | _ => rfl

/-- Two configurations that train the same models. -/
structure IvfConfig.SameTraining (cfg cfg' : IvfConfig) : Prop where
  n_clusters : cfg.n_clusters = cfg'.n_clusters
  training_sample_size : cfg.training_sample_size = cfg'.training_sample_size
  use_pq : cfg.use_pq = cfg'.use_pq
  pq_subvectors : cfg.pq_subvectors = cfg'.pq_subvectors
  seed : cfg.seed = cfg'.seed

/-- A configuration trains like itself. -/
theorem IvfConfig.SameTraining.refl (cfg : IvfConfig) : cfg.SameTraining cfg :=
  ⟨rfl, rfl, rfl, rfl, rfl⟩

/-- Training alike is symmetric. -/
theorem IvfConfig.SameTraining.symm {cfg cfg' : IvfConfig} (h : cfg.SameTraining cfg') :
    cfg'.SameTraining cfg :=
  ⟨h.n_clusters.symm, h.training_sample_size.symm, h.use_pq.symm, h.pq_subvectors.symm, h.seed.symm⟩

/-- Training alike is transitive. -/
theorem IvfConfig.SameTraining.trans {cfg cfg' cfg'' : IvfConfig} (h : cfg.SameTraining cfg')
    (h' : cfg'.SameTraining cfg'') : cfg.SameTraining cfg'' :=
  ⟨h.n_clusters.trans h'.n_clusters, h.training_sample_size.trans h'.training_sample_size,
    h.use_pq.trans h'.use_pq, h.pq_subvectors.trans h'.pq_subvectors, h.seed.trans h'.seed⟩

/-- What a call leaves alone. -/
structure Frame (s t : IvfIndex X) : Prop where
  dim : t.dim = s.dim
  metric : t.metric = s.metric
  cfg : t.cfg.SameTraining s.cfg
  trained : s.trained = true → t.trained = true

/-- No call changes the dimension, the metric, or what the configuration says of training, and a
trained index stays trained. -/
theorem Transition.frame {op : Op X} {r : Except IqdbError Unit} (h : Transition s op r t) :
    Frame s t := by
  have hplace : ∀ cs pq (es : List (InvertedListEntry X)),
      Frame s ((s.drained cs pq).placeAll es) := by
    intro cs pq es
    rw [IvfIndex.placeAll_eq]
    exact ⟨rfl, rfl, .refl _, id⟩
  cases h with
  | trained => exact ⟨rfl, rfl, .refl _, fun _ => rfl⟩
  | nProbesSet n hpos hn => exact ⟨rfl, rfl, ⟨rfl, rfl, rfl, rfl, rfl⟩, id⟩
  | pqRefineFactorSet factor => exact ⟨rfl, rfl, ⟨rfl, rfl, rfl, rfl, rfl⟩, id⟩
  | retrainEncodeFails cs pq done => exact hplace cs pq done
  | retrained cs pq => exact hplace cs pq s.live
  | _ => exact ⟨rfl, rfl, .refl _, id⟩

/-- Nothing changes from a state to itself. -/
theorem Frame.refl (s : IvfIndex X) : Frame s s := ⟨rfl, rfl, .refl _, id⟩

/-- What two calls leave alone. -/
theorem Frame.trans {u : IvfIndex X} (h : Frame s t) (h' : Frame t u) : Frame s u :=
  ⟨h'.dim.trans h.dim, h'.metric.trans h.metric, h'.cfg.trans h.cfg,
    fun htrained => h'.trained (h.trained htrained)⟩

/-- What a sequence of transitions leaves alone. -/
theorem Transitions.frame {ops : List (Op X)} {rs : List (Except IqdbError Unit)}
    (h : Transitions s ops rs t) : Frame s t := by
  induction h with
  | nil => exact .refl _
  | cons _ htransition _ ih => exact htransition.frame.trans ih

/-- What a sequence of calls leaves alone. -/
theorem Inv.frame_of_calls (h : Inv s) {ops : List (Op X)} {rs : List (Except IqdbError Unit)}
    (hcalls : calls ops s = .ok (rs, t)) : Inv t ∧ Frame s t := by
  have hrun := transitions_of_calls h hcalls
  exact ⟨hrun.inv, hrun.frame⟩

/-- The number of stamps that a call may take. -/
def Op.stamps : Op X → ℕ
  | .insert _ _ _ => 1
  | _ => 0

/-- A call moves the stamp counter by the stamps that it takes, or not at all. -/
theorem Transition.next_seq_bounds {op : Op X} {r : Except IqdbError Unit}
    (h : Transition s op r t) : s.next_seq ≤ t.next_seq ∧ t.next_seq ≤ s.next_seq + op.stamps := by
  have hplace : ∀ cs pq (es : List (InvertedListEntry X)),
      ((s.drained cs pq).placeAll es).next_seq = s.next_seq := by
    intro cs pq es
    rw [IvfIndex.placeAll_eq]
    rfl
  cases h with
  | insertEncodeFails => exact ⟨Nat.le_succ _, Nat.le_refl _⟩
  | inserted => exact ⟨Nat.le_succ _, Nat.le_refl _⟩
  | retrainEncodeFails cs pq done =>
    rw [hplace]
    exact ⟨Nat.le_refl _, Nat.le_refl _⟩
  | retrained cs pq =>
    rw [hplace]
    exact ⟨Nat.le_refl _, Nat.le_refl _⟩
  | _ => exact ⟨Nat.le_refl _, Nat.le_add_right _ _⟩

/-- An id is live when it is the id of an item. -/
theorem mem_ids_iff (id : X.VectorId) :
    id ∈ s.entries.map (·.id) ↔ id ∈ s.items.map (·.id) := by
  have hperm : (s.live.map (·.id)).Perm (s.entries.map (·.id)) := s.live_perm.map _
  unfold IvfIndex.items
  rw [List.map_map, ← hperm.mem_iff]
  rfl

/-- There are as many items as the index counts. -/
theorem Inv.length_items (h : Inv s) : s.items.length = s.live_count := by
  unfold IvfIndex.items
  rw [List.length_map, h.length_live]

/-- A constructed index has no items. -/
theorem items_fresh (dim : ℕ) (metric : DistanceMetric) (cfg : IvfConfig) :
    (IvfIndex.fresh X dim metric cfg).items = [] := by
  have hnil : (IvfIndex.fresh X dim metric cfg).entries = [] :=
    List.flatten_eq_nil_iff.2 fun list hlist => List.eq_of_mem_replicate hlist
  unfold IvfIndex.items IvfIndex.live
  rw [hnil]
  rfl

end IqdbIvf
