import IqdbIvf.Spec.Canonical
import IqdbIvf.Spec.PlainPq

/-!
# Retraining what training was given

`train` and `retrain` drive the training stages separately: one draws its working set inside k-means
and the other before it. On an index that was filled with its own training sample, in order, both
draw the whole sample, so `retrain` computes the model that is there already. Its reassign loop then
rebuilds the lists that the inserts have built: the state is laid out as a distribution of the live
entries over an empty index (`IvfIndex.LaidOut`), and inserts keep this.
-/

set_option linter.unusedSectionVars false

namespace IqdbIvf

open Outcome Buckets Rational

variable {F32 : Type} [Arith F32] {X : Crates F32} {s t : IvfIndex X}

/-! ## The layout -/

/-- The state is what placing its live entries into the emptied index gives. -/
def IvfIndex.LaidOut (s : IvfIndex X) : Prop :=
  (s.drained s.centroids s.pq).placeAll s.live = s

/-- An index without entries is laid out. -/
theorem Inv.laidOut_of_empty (h : Inv s) (hempty : s.entries = []) : s.LaidOut := by
  have hlive : s.live = [] := (hempty ▸ s.live_perm).eq_nil
  have hlists : s.inverted_lists.map (fun _ => []) = s.inverted_lists := by
    have hnil := List.flatten_eq_nil_iff.1 hempty
    exact (List.map_congr_left fun list hlist => (hnil list hlist).symm).trans (List.map_id _)
  have hmap : s.id_to_cluster = ∅ := by
    apply Finmap.ext_lookup
    intro id
    rw [Finmap.lookup_empty, Finmap.lookup_eq_none, h.mem_iff, hempty]
    exact List.not_mem_nil
  have hcount : s.live_count = 0 := by
    rw [h.live_count, hempty]
    rfl
  unfold IvfIndex.LaidOut
  rw [hlive]
  show s.drained s.centroids s.pq = s
  unfold IvfIndex.drained
  rw [hlists, ← hmap, ← hcount]

/-- Placing entries does not look at the stamp counter. -/
theorem IvfIndex.placeAll_bumpSeq (s : IvfIndex X) (es : List (InvertedListEntry X)) :
    s.bumpSeq.placeAll es = (s.placeAll es).bumpSeq := by
  rw [placeAll_eq, placeAll_eq]
  rfl

/-- The state after an insert is the state before it with the new entry placed. -/
theorem place_of_encode {id : X.VectorId} {v : List F32} {m : Option X.Metadata}
    {code : Option X.PqCode} (hcode : s.encode v = .ok code) :
    s.bumpSeq.place ⟨id, v, code, m, s.next_seq⟩ =
      s.bumpSeq.addEntry (nearest s.centroids v) ⟨id, v, code, m, s.next_seq⟩ := by
  have hrecode : s.bumpSeq.codeOf v = code := by
    show (s.encode v).toOption.getD none = code
    rw [hcode]
    rfl
  unfold IvfIndex.place IvfIndex.recode
  rw [hrecode]
  rfl

/-- Emptying an index with one more entry. -/
theorem drained_addEntry (c : ℕ) (e : InvertedListEntry X) (cs : List (List F32))
    (pq : Option X.ProductQuantizer) : (s.addEntry c e).drained cs pq = s.drained cs pq := by
  have hlists : (s.addEntry c e).inverted_lists.map (fun _ => ([] : List (InvertedListEntry X))) =
      s.inverted_lists.map fun _ => [] := by
    unfold IvfIndex.addEntry
    rw [List.map_const', List.map_const', List.length_modify]
  unfold IvfIndex.drained
  rw [hlists]
  rfl

/-- What an insert that returns `Ok` leaves alone, and what it does to the live entries. -/
structure Inserted (s : IvfIndex X) (items : List (Item X)) (t : IvfIndex X) : Prop where
  inv : Inv t
  dim : t.dim = s.dim
  cfg : t.cfg = s.cfg
  trained : t.trained = s.trained
  centroids : t.centroids = s.centroids
  pq : t.pq = s.pq
  items : t.items = s.items ++ items
  laidOut : s.LaidOut → t.LaidOut

/-- An insert that returns `Ok` keeps the layout. -/
theorem Inv.inserted (h : Inv s) {item : Item X}
    (hcall : call (.insert item.id item.vector item.metadata) s = .ok (.ok (), t)) :
    Inserted s [item] t := by
  have htransition := transition_of_call h hcall
  have ht := htransition.inv h
  have hitems := htransition.items_of_ok h
  cases htransition with
  | inserted id v m code htrained hdim hid hseq hcode =>
    refine ⟨ht, rfl, rfl, rfl, rfl, rfl, hitems, fun hlaid => ?_⟩
    have hlt := ((h.centroids htrained).nearest_spec h.valid.one_le_n_clusters hdim).2
    let e : InvertedListEntry X := ⟨item.id, item.vector, code, item.metadata, s.next_seq⟩
    let t := s.bumpSeq.addEntry (nearest s.centroids item.vector) e
    have hlive : t.live = s.live ++ [e] := h.live_addEntry hseq hlt rfl ht
    calc (t.drained t.centroids t.pq).placeAll t.live
        = (s.bumpSeq.drained s.centroids s.pq).placeAll (s.live ++ [e]) := by
          rw [hlive, drained_addEntry]
          rfl
      _ = ((s.drained s.centroids s.pq).bumpSeq.placeAll s.live).place e := List.foldl_append
      _ = s.bumpSeq.place e := by rw [IvfIndex.placeAll_bumpSeq, hlaid]
      _ = t := place_of_encode hcode

/-- The calls that insert the items, in order. -/
def insertAll (items : List (Item X)) : List (Op X) :=
  items.map fun item => .insert item.id item.vector item.metadata

/-- Inserts that all return `Ok` keep the layout. -/
theorem Inv.insertedAll (h : Inv s) {items : List (Item X)} {rs : List (Except IqdbError Unit)}
    (hcalls : calls (insertAll items) s = .ok (rs, t)) (hok : ∀ r ∈ rs, r = .ok ()) :
    Inserted s items t := by
  induction items generalizing s rs with
  | nil =>
    obtain ⟨-, rfl⟩ : [] = rs ∧ s = t := by simpa [insertAll, calls] using hcalls
    exact ⟨h, rfl, rfl, rfl, rfl, rfl, (List.append_nil _).symm, id⟩
  | cons item items ih =>
    obtain ⟨r, u, rs', hcall, hrest, rfl⟩ := calls_cons_eq_ok hcalls
    obtain rfl := hok r List.mem_cons_self
    have hfirst := h.inserted hcall
    have hlater := ih hfirst.inv hrest fun r hr => hok r (List.mem_cons_of_mem _ hr)
    refine ⟨hlater.inv, hlater.dim.trans hfirst.dim, hlater.cfg.trans hfirst.cfg,
      hlater.trained.trans hfirst.trained, hlater.centroids.trans hfirst.centroids,
      hlater.pq.trans hfirst.pq, ?_, fun hlaid => hlater.laidOut (hfirst.laidOut hlaid)⟩
    rw [hlater.items, hfirst.items, List.append_assoc]
    rfl

/-! ## Both drivers -/

/-- k-means on a whole sample does not look at the cap. -/
theorem trainKmeans_of_le {dim n_clusters cap : ℕ} {seed : UInt64} {sample : List (List F32)}
    (h : sample.length ≤ cap) : trainKmeans dim n_clusters seed sample cap =
      trainKmeans dim n_clusters seed sample sample.length := by
  unfold trainKmeans
  rw [Nat.min_eq_right h, Nat.min_self]

/-- An index whose live vectors are the sample that it was trained on goes through the stages of its
training again. -/
theorem Inv.retrains_of_trained (h : Inv s) {sample : List (List F32)}
    (hvectors : s.live.map (·.vector) = sample)
    (hcap : sample.length ≤ s.cfg.training_sample_size)
    (hkmeans : trainKmeans s.dim s.cfg.n_clusters s.cfg.seed sample s.cfg.training_sample_size =
      .ok s.centroids)
    (hpq : TrainsPq s.cfg sample s.pq s.pq) : Retrains s s.centroids s.pq := by
  have hsample : s.sample = sample := by
    unfold IvfIndex.sample
    rw [hvectors, workingSet_of_le hcap]
  constructor
  case kmeans =>
    unfold IvfIndex.recluster
    rw [hsample, ← trainKmeans_of_le hcap]
    exact hkmeans
  case trains =>
    rw [hsample]
    exact hpq
  case encodes =>
    intro e he
    -- The codes that are there were given by this quantizer.
    obtain ⟨c, hc⟩ := mem_flatten_iff.1 (s.live_perm.mem_iff.1 he)
    exact ⟨e.pq_code, (h.placed c e hc).code⟩

/-- An index that was trained on a sample within the cap, and filled with the vectors of this sample
in order, is retrained to itself. -/
theorem train_insert_retrain_fixed {s₀ s₁ : IvfIndex X} (hs₀ : Reachable s₀)
    {sample : Slice (List F32)} (hcap : sample.1.length ≤ s₀.cfg.training_sample_size)
    (htrain : call (.train sample) s₀ = .ok (.ok (), s₁)) {items : List (Item X)}
    (hvectors : items.map (·.vector) = sample.1) {rs : List (Except IqdbError Unit)}
    (hinserts : calls (insertAll items) s₁ = .ok (rs, s)) (hok : ∀ r ∈ rs, r = .ok ()) :
    call .retrain s = .ok (.ok (), s) := by
  have h₀ := hs₀.inv
  have htransition := transition_of_call h₀ htrain
  have h₁ := htransition.inv h₀
  have hitems₁ := htransition.items_of_ok h₀
  cases htransition with
  | trained _ cs pq htrained hkmeans hpq =>
    obtain ⟨hempty, hnone⟩ := h₀.untrained htrained
    have hfilled := h₁.insertedAll hinserts hok
    have hlaid := hfilled.laidOut (h₁.laidOut_of_empty hempty)
    -- The items are those that were inserted, in the order of the sample.
    have hnil : s₀.items = [] := by
      rw [← List.length_eq_zero_iff, h₀.length_items, h₀.live_count, hempty]
      rfl
    have hlive : s.live.map (·.vector) = sample.1 := by
      rw [live_vectors_eq, hfilled.items, hitems₁, hnil]
      exact hvectors
    have hcount : s.live_count ≠ 0 := by
      rw [← hfilled.inv.length_live_vectors, hlive]
      cases hpre : trainPrechecks s₀.dim s₀.cfg.n_clusters sample.1 with
      | error e =>
        rw [trainKmeans_of_precheck_error hpre] at hkmeans
        cases hkmeans
      | ok u =>
        have hne := (trainPrechecks_eq_ok.1 hpre).1
        exact Nat.ne_of_gt (List.length_pos_iff.2 hne)
    have hr : Retrains s s.centroids s.pq := by
      apply hfilled.inv.retrains_of_trained hlive
      · rw [hfilled.cfg]
        exact hcap
      · rw [hfilled.dim, hfilled.cfg, hfilled.centroids]
        exact hkmeans
      · -- An untrained index has no quantizer to keep.
        rw [hfilled.cfg, hfilled.pq]
        rcases hpq with ⟨huse, q, hq, rfl⟩ | ⟨huse, rfl⟩
        · exact .inl ⟨huse, q, hq, rfl⟩
        · exact .inr ⟨huse, rfl⟩
    have hsame : (s.drained s.centroids s.pq).placeAll s.live = s := hlaid
    rw [hfilled.inv.retrain_of_retrains hfilled.trained hcount hr, hsame]

/-- The items of a sample of two vectors, with other ids and metadata. -/
def twoItems : List (Item crates) := [⟨8, [0], none⟩, ⟨3, [10], some 5⟩]

/-- The two-cluster index, filled with the sample that it was trained on. -/
theorem flatTrained_retrain_fixed :
    twoVectors.1.length ≤ flatIndex.cfg.training_sample_size ∧
    call (.train twoVectors) flatIndex = .ok (.ok (), flatTrained) ∧
    call .retrain (flatTrained.after (insertAll twoItems)) =
      .ok (.ok (), flatTrained.after (insertAll twoItems)) := by
  have hreach := Reachable.new flatIndex_new
  have htrained : Inv flatTrained := (hreach.after _).inv
  have hresults : flatTrained.results (insertAll twoItems) = [.ok (), .ok ()] := by decide +kernel
  have hvectors : twoItems.map (·.vector) = twoVectors.1 := rfl
  refine ⟨by decide, flatTrained_eq, ?_⟩
  apply train_insert_retrain_fixed hreach (by decide) flatTrained_eq hvectors
    (htrained.calls_results _)
  rw [hresults]
  simp

end IqdbIvf
